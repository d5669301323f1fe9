import Fuso.Socks.Reading

/-!
# The handshake as a parser

`parse` is the handshake of a server that asks for no authentication as a function of the bytes the
client sends: the lengths of its messages, the outcome and the bytes behind it. `Conforms` relates
it to a run of `Socks5::poll` whose reads were answered with the given sizes; `Conforms.expect` is
the step from one message to the next.
-/

namespace Fuso.Socks5
open Turn

abbrev reset : Exit Socket := .ret (.error (.io .connectionReset))

theorem exists_two {rx : Bytes} (h : 2 ≤ rx.length) : ∃ a b rest, rx = a :: b :: rest :=
  match rx, h with
  | a :: b :: rest, _ => ⟨a, b, rest, rfl⟩

theorem exists_four {rx : Bytes} (h : 4 ≤ rx.length) :
    ∃ a b c d rest, rx = a :: b :: c :: d :: rest :=
  match rx, h with
  | a :: b :: c :: d :: rest, _ => ⟨a, b, c, d, rest, rfl⟩

/-- What a handshake does with a byte string that comes in whole messages. -/
structure Parsed where
  messages : List Nat
  out : Exit Socket
  rest : Bytes

namespace Parsed

def done (out : Exit Socket) (rest : Bytes) : Parsed := ⟨[], out, rest⟩

/-- The stream ends in a message. -/
def eof : Parsed := done reset []

/-- A message of `len` bytes in front of `p`, which parses `rest`. When the stream ends behind the
message and the handshake has not, the message is not counted: the handshake then ends in the same
`ConnectionReset` in front of it and behind it. -/
def count (len : Nat) (rest : Bytes) (p : Parsed) : Parsed :=
  if p.out = reset ∧ rest = [] then eof else ⟨len :: p.messages, p.out, p.rest⟩

/-- A message of `len` bytes, and the parser of what follows it. -/
def message (len : Nat) (rx : Bytes) (k : Bytes → Bytes → Parsed) : Parsed :=
  if len = 0 then k [] rx
  else if rx.length < len then eof
  else count len (rx.drop len) (k (rx.take len) (rx.drop len))

end Parsed

def parseAddressMessage (cmd rsv atype : UInt8) (data rest : Bytes) : Parsed :=
  .done (parseAddress cmd rsv atype data) rest

/-- The length of the domain, the domain and the port. A length that the addition of 2 wraps to 1 is
followed by another length. -/
def parseDomain (oc : Bool) (cmd rsv : UInt8) : Bytes → Parsed
  | [] => .eof
  | b :: rest =>
    .count 1 rest <| match addTwo oc b with
      | none => .done .panic rest
      | some len =>
        if len = 1 then parseDomain oc cmd rsv rest
        else .message len.toNat rest (parseAddressMessage cmd rsv 0x03)

def parseRequestHead (oc : Bool) (data rest : Bytes) : Parsed :=
  match data with
  | ver :: cmd :: rsv :: atype :: _ =>
    if ver ≠ 0x05 then .done (.ret (.error (.socks .protocol))) rest
    else match atypeLen atype with
    | none => .done (.ret (.error (.socks .invalidAddress))) rest
    | some len =>
      if atype = 0x03 then parseDomain oc cmd rsv rest
      else .message len rest (parseAddressMessage cmd rsv atype)
  | _ => .done .panic rest

def parseRequest (oc : Bool) (rx : Bytes) : Parsed := .message 4 rx (parseRequestHead oc)

/-- What follows the two bytes of the greeting: the methods, and what `auth` parses. -/
def parseMethods (auth : Bytes → Parsed) (data rest : Bytes) : Parsed :=
  match Head.tryFrom data with
  | .error e => .done (.ret (.error e)) rest
  | .ok nmethod => .message nmethod.toNat rest fun _ rest => auth rest

def parseGreeting (auth : Bytes → Parsed) (rx : Bytes) : Parsed :=
  .message 2 rx (parseMethods auth)

def parse (oc : Bool) : Bytes → Parsed := parseGreeting (parseRequest oc)

/-- An outcome other than `ConnectionReset` is that of the parser behind the message. -/
theorem Parsed.message_out {k : Bytes → Bytes → Parsed} (h : (Parsed.message len rx k).out = x)
    (hne : x ≠ reset) : len ≤ rx.length ∧ (k (rx.take len) (rx.drop len)).out = x := by
  unfold Parsed.message Parsed.count at h
  split at h
  · next h0 => simpa [h0] using h
  · split at h
    · exact absurd h.symm hne
    · split at h
      · exact absurd h.symm hne
      · exact ⟨by omega, h⟩

/-! ## What a parser leaves -/

/-- The counted messages are a part of the stream, and a proper one when the stream ends before the
handshake does. -/
structure Fits (p : Parsed) (rx : Bytes) : Prop where
  suffix : p.rest <:+ rx
  pos : ∀ len ∈ p.messages, 0 < len
  sum_le : p.messages.sum ≤ rx.length
  sum_lt : p.out = reset → p.messages ≠ [] → p.messages.sum < rx.length
  rest_nil : p.out = reset → p.rest = []

theorem Fits.eof : Fits .eof rx :=
  ⟨List.nil_suffix, by simp [Parsed.eof, Parsed.done], by simp [Parsed.eof, Parsed.done],
    by simp [Parsed.eof, Parsed.done], fun _ => rfl⟩

theorem Fits.done (h : out ≠ reset) : Fits (.done out rest) rest :=
  ⟨List.suffix_rfl, by simp [Parsed.done], by simp [Parsed.done], by simp [Parsed.done],
    fun h' => absurd h' h⟩

theorem Fits.count (hpos : 0 < len) (h : Fits p rest) (hrx : rest.length + len = rx.length)
    (hs : rest <:+ rx) : Fits (.count len rest p) rx := by
  unfold Parsed.count
  split
  · exact .eof
  · have hsum := h.sum_le
    refine ⟨h.suffix.trans hs, ?_, by simp; omega, ?_, h.rest_nil⟩
    · simpa using ⟨hpos, h.pos⟩
    · intro hout _
      have hne : 0 < rest.length := List.length_pos_iff.2 fun hr => by simp_all
      rcases eq_or_ne p.messages [] with hp | hp
      · simp [hp]; omega
      · have := h.sum_lt hout hp
        simp; omega

theorem Fits.message {k : Bytes → Bytes → Parsed} (hk : ∀ data rest, Fits (k data rest) rest) :
    Fits (.message len rx k) rx := by
  unfold Parsed.message
  split
  · exact hk _ _
  · split
    · exact .eof
    · exact .count (by omega) (hk _ _) (by simp; omega) (List.drop_suffix _ _)

theorem parseAddr_ne_reset (atype : UInt8) (data : Bytes) :
    parseAddr atype data ≠ .ret (.error (.io .connectionReset)) := by
  unfold parseAddr
  split_ifs <;> simp

theorem parseAddress_ne_reset (cmd rsv atype : UInt8) (data : Bytes) :
    parseAddress cmd rsv atype data ≠ reset := by
  have := parseAddr_ne_reset atype data
  unfold parseAddress
  cases h : parseAddr atype data with
  | ret r => cases r <;> split_ifs <;> simp_all
  | _ => split_ifs <;> simp

theorem fits_parseDomain : Fits (parseDomain oc cmd rsv rx) rx := by
  induction rx with
  | nil => exact .eof
  | cons b rest ih =>
    refine .count Nat.one_pos ?_ rfl (List.suffix_cons _ _)
    split
    · exact .done nofun
    · split
      · exact ih
      · exact .message fun _ _ => .done (parseAddress_ne_reset _ _ _ _)

theorem fits_requestHead : Fits (parseRequestHead oc data rest) rest := by
  unfold parseRequestHead
  split
  · split
    · exact .done (by simp)
    · split
      · exact .done (by simp)
      · split
        · exact fits_parseDomain
        · exact .message fun _ _ => .done (parseAddress_ne_reset _ _ _ _)
  · exact .done nofun

theorem fits_parseRequest : Fits (parseRequest oc rx) rx := .message fun _ _ => fits_requestHead

theorem fits_methods {auth : Bytes → Parsed} (hf : ∀ rest, Fits (auth rest) rest) :
    Fits (parseMethods auth data rest) rest := by
  unfold parseMethods
  split
  · next e he =>
    refine .done fun h => ?_
    unfold Head.tryFrom at he
    split at he
    · split at he <;> simp_all
    · simp_all
  · exact .message fun _ _ => hf _

theorem fits_parse : Fits (parse oc rx) rx := by
  unfold parse parseGreeting
  exact .message fun _ _ => fits_methods fun _ => fits_parseRequest

/-! ## Runs and parses -/

/-- The first message that the read it is awaited with does not deliver whole, when the reads are
answered with the given sizes. -/
def firstSplit : List Nat → List Nat → Option Nat
  | len :: messages, n :: cuts =>
    if n < len then some 0 else (firstSplit messages cuts).map (· + 1)
  | _, _ => none

/-- A handshake on `rx` with outcome `out` that leaves `rest`: as parsed when no message was split,
and otherwise `ConnectionReset` behind the first message that was. -/
def Conforms (p : Parsed) (rx : Bytes) (cuts : List Nat) (out : Exit Socket) (rest : Bytes) :
    Prop :=
  match firstSplit p.messages cuts with
  | none => out = p.out ∧ rest = p.rest
  | some k => out = reset ∧ rest = rx.drop (p.messages.take (k + 1)).sum

theorem Conforms.out_eq (h : Conforms p rx cuts out rest) (hne : out ≠ reset) : p.out = out := by
  unfold Conforms at h
  split at h
  · exact h.1.symm
  · exact absurd h.1 hne

theorem Conforms.suffix (hf : Fits p rx) (h : Conforms p rx cuts out rest) : rest <:+ rx := by
  unfold Conforms at h
  split at h
  · exact h.2 ▸ hf.suffix
  · exact h.2 ▸ List.drop_suffix _ _

theorem Conforms.done : Conforms (.done out rest) rx cuts out rest := by
  simp [Conforms, Parsed.done, firstSplit]

theorem Conforms.eof : Conforms .eof rx cuts reset [] := .done

/-- A message that was delivered whole. -/
theorem Conforms.count (hf : Fits p (rx.drop len)) (hn : len ≤ n)
    (h : Conforms p (rx.drop len) cuts out rest) :
    Conforms (.count len (rx.drop len) p) rx (n :: cuts) out rest := by
  unfold Parsed.count
  split
  · next hp =>
    obtain ⟨rfl, rfl⟩ : out = reset ∧ rest = [] := by
      unfold Conforms at h
      split at h
      · exact ⟨h.1.trans hp.1, h.2.trans (hf.rest_nil hp.1)⟩
      · exact ⟨h.1, by rw [h.2, hp.2, List.drop_nil]⟩
    exact .eof
  · unfold Conforms at h ⊢
    simp only [firstSplit, if_neg (Nat.not_lt.2 hn)]
    cases hs : firstSplit p.messages cuts with
    | none => simpa [hs] using h
    | some k =>
      simp only [hs, Option.map_some] at h ⊢
      exact ⟨h.1, by rw [h.2, List.drop_drop, List.take_succ_cons, List.sum_cons]⟩

/-- A message that was not delivered whole. -/
theorem Conforms.count_split (hn : n < len) :
    Conforms (.count len (rx.drop len) p) rx (n :: cuts) reset (rx.drop len) := by
  unfold Parsed.count
  split
  · next hp => exact hp.2 ▸ .eof
  · simp [Conforms, firstSplit, if_pos hn]

/-- One message: if the run behind a whole message conforms, so does the run in front of it. -/
theorem Conforms.expect {m : Socks5 Duplex} {k : Bytes → Bytes → Parsed} (hw : m.writeBuf = [])
    (hst : st.Asks len) (hf : ∀ data rest, Fits (k data rest) rest)
    (hk : ∀ reads, len ≤ m.stream.incoming.length →
      Drives (step oc) (.select, (m.expect st len).received reads) t r →
      Conforms (k (m.stream.incoming.take len) (m.stream.incoming.drop len))
        (m.stream.incoming.drop len) (sizes reads) r t.2.stream.incoming)
    (H : Drives (step oc) (.write, m.expect st len) t r) :
    Conforms (.message len m.stream.incoming k) m.stream.incoming (sizes m.stream.reads) r
      t.2.stream.incoming := by
  unfold Parsed.message
  rcases Nat.eq_zero_or_pos len with rfl | hpos
  · exact hk _ (Nat.zero_le _) ((drives_iff_of_reaches (reaches_expect_zero oc _ hw)).1 H)
  · obtain ⟨n, reads, hsizes, hH⟩ := drives_message (awaits_expect hw hst hpos) rfl H
    simp only [Socks5.expect, List.length_replicate] at hsizes hH
    rw [if_neg hpos.ne', hsizes]
    split at hH
    · next hwhole =>
      rw [if_neg (by omega)]
      exact .count (hf _ _) hwhole.1 (hk reads hwhole.2 hH)
    · next hcut =>
      obtain ⟨rfl, hin⟩ := hH
      rw [hin]
      split
      · rw [List.drop_eq_nil_of_le (by omega)]
        exact .eof
      · exact .count_split (by omega)

end Fuso.Socks5
