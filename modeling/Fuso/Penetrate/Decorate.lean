import Fuso.Async.Party
import Fuso.Compress.Peer
import Fuso.Encryption.Layer

/-!
# `PenetrateAesAndLz4Decorator`

The streams that carry data after a handshake: AES over LZ4. At both ends of such a stream there is
a party that reads and writes as it likes. As long as the messages of what one of them writes are in
a row in the rings of the compression, what the other one has read is the beginning of it, however
much of it has arrived and in whatever pieces, and all of it can be read when all has arrived
(`PenetrateAesAndLz4Decorator.carried`).
-/

namespace Fuso
open Lz4

structure PenetrateAesAndLz4Decorator where
  iv : Bytes
  key : Bytes

namespace PenetrateAesAndLz4Decorator
variable (this : PenetrateAesAndLz4Decorator) (aes : AesCrate) {E D : Type} (lib : Lz4 E D)

/-- The stream that `call` returns. -/
abbrev Decorated (S : Type) := AESEncryptor aes this.iv this.key (Lz4Stream lib S)

def call (stream : S) : Decorated this aes lib S := .new (.new lib stream) ()

variable {this aes lib} {e₀ : E} {d₀ : D}

/-- The bytes that a party has put on the wire. -/
def wire (p : Party (Decorated this aes lib Duplex)) : Bytes :=
  p.stream.target.lz4.lz4Stream.sent

variable (lib) in
def source : Source (Decorated this aes lib Duplex) :=
  Encryptor.source _ (Lz4Stream.source lib)

variable (haes : aes.Pkcs7 this.iv this.key) (hlib : Coder lib e₀ d₀)

def outlet : Outlet (Decorated this aes lib Duplex) :=
  Encryptor.outlet haes.seals (Lz4Stream.outlet hlib) (fun _ => trivial) []

theorem exchanges : Exchanges (source lib) (outlet haes hlib) :=
  Encryptor.exchanges haes.seals (fun _ => trivial) [] (Lz4Stream.exchanges hlib)

theorem sent_call {s : Duplex} (hs : s.sent = []) :
    (outlet haes hlib).Sent [] (call this aes lib s) :=
  Encryptor.idle_new (Lz4Stream.sent_new hlib hs) ()

section
variable {haes} (hlib : RowCodec lib e₀ d₀) {p : Party (Decorated this aes lib Duplex)} {r : Duplex}

/-- What is left to be read when a part of the wire has arrived. -/
theorem left_call (h : p.Writes (outlet haes hlib.toCoder) [])
    (hrow : (p.offered.map aesMessageLen).sum ≤ 2028) (hr : r.incoming <+: wire p) :
    ∃ b, b <+: p.offered.flatten ∧ (source lib).Left (call this aes lib r) b := by
  obtain ⟨frames, ms, hsealed, hms, htook⟩ := Encryptor.took_target h.took
  have hlen : frames.flatten.length ≤ 2028 := by
    rw [length_sealed hsealed]
    obtain ⟨rest, hrest⟩ := hms
    rw [List.nil_append] at hrest
    rw [← hrest, List.map_append, List.sum_append] at hrow
    exact Nat.le_trans (Nat.le_add_right _ _) hrow
  obtain ⟨b', hb', hleft'⟩ := Lz4Stream.left_prefix hlib htook hlen hr
  obtain ⟨b, hb, hleft⟩ := Encryptor.left_prefix (opens_of_sealed hsealed) hleft' hb' ()
  exact ⟨b, hb.trans hms.flatten, hleft⟩

/-- What is left when all of it has. -/
theorem left_call_all (h : p.Writes (outlet haes hlib.toCoder) []) (hidle : p.writing = none)
    (hrow : (p.accepted.map aesMessageLen).sum ≤ 2028) (hr : r.incoming = wire p) :
    (source lib).Left (call this aes lib r) p.accepted.flatten := by
  obtain ⟨-, frames, hsealed, hsent⟩ := h.idle hidle
  have hlen : frames.flatten.length ≤ 2028 := (length_sealed hsealed).trans_le hrow
  exact Encryptor.left_all (opens_of_sealed hsealed) (Lz4Stream.left_new hlib hsent hlen hr) ()

end

theorem offered_idle {p : Party (Decorated this aes lib Duplex)} (h : p.writing = none) :
    p.offered = p.accepted := by
  rw [Party.offered, h, Option.toList_none, List.append_nil]

/-- `a` and `b` poll the two ends of a decorated stream in any order, and the bytes that arrive at
`b` are the first ones that `a` has put on the wire. The messages of what `a` has written or is
writing have no more than 2028 bytes, so they are in a row. Then `b` has read the beginning of what
`a` has written or is writing. When all has arrived and no write is under way, `b` reads to the end
of it: it does not come to the end before, and while there are answers enough some more reads do it.
-/
theorem carried (haes : aes.Pkcs7 this.iv this.key) (hlib : RowCodec lib e₀ d₀) {s r : Duplex}
    (hs : s.sent = []) {opsA opsB : List Party.Op}
    (hopsA : ∀ op ∈ opsA, op.Valid (·.length < 2 ^ 32 - 20))
    (hopsB : ∀ op ∈ opsB, op.Valid (·.length < 2 ^ 32 - 20))
    {a b : Party (Decorated this aes lib Duplex)}
    (ha : a = (Party.new (call this aes lib s)).run opsA)
    (hb : b = (Party.new (call this aes lib r)).run opsB)
    (hrow : (a.offered.map aesMessageLen).sum ≤ 2028) (hr : r.incoming <+: wire a) :
    b.delivered <+: a.offered.flatten ∧
    (a.writing = none → r.incoming = wire a →
      (b.ended = true → b.delivered = a.accepted.flatten) ∧
      (r.Live → ∀ cap, 0 < cap → ∃ n,
        (b.run (.replicate n (.read cap))).delivered = a.accepted.flatten)) := by
  have hX := exchanges haes hlib.toCoder
  have hwrites : a.Writes (outlet haes hlib.toCoder) [] :=
    ha ▸ (Party.writes_new (sent_call haes hlib.toCoder hs)).run hX hopsA
  refine ⟨?_, fun hidle hall => ?_⟩
  · obtain ⟨total, htotal, hleft⟩ := left_call hlib hwrites hrow hr
    have hreads := (Party.reads_new hleft).run hX hopsB
    rw [← hb] at hreads
    exact hreads.isPrefix.trans htotal
  · rw [offered_idle hidle] at hrow
    have hreads := (Party.reads_new (left_call_all hlib hwrites hidle hrow hall)).run hX hopsB
    rw [← hb] at hreads
    exact ⟨hreads.ended, fun hlive cap hcap => hreads.exists_reads hlive hcap⟩

/-- Three bytes, written in one call. -/
theorem carried_three : ∃ (s r : Duplex) (k n : Nat),
    (∀ a, a = (Party.new (call ⟨[], []⟩ paddingAes Lz4Compress.stored s)).run
        (.replicate k (.write [1, 2, 3])) → a.accepted = [[1, 2, 3]] ∧ r.incoming = wire a) ∧
    ((Party.new (call ⟨[], []⟩ paddingAes Lz4Compress.stored r)).run
      (.replicate n (.read 8))).delivered = [1, 2, 3] := by
  let this : PenetrateAesAndLz4Decorator := ⟨[], []⟩
  have haes : paddingAes.Pkcs7 this.iv this.key := pkcs7_paddingAes [] []
  have hlib := Lz4Compress.blockCodec_stored.rowCodec
  let cost := (outlet haes hlib.toCoder).cost 3
  let s : Duplex := ⟨[], [], .replicate (cost + 0) (.upTo 0), [], []⟩
  have hne : ([1, 2, 3] : Bytes) ≠ [] := List.cons_ne_nil _ _
  obtain ⟨k, hidle, haccepted, -⟩ := (Party.writes_new (sent_call haes hlib.toCoder (s := s) rfl)
    ).exists_write (n := 0) rfl hne (by decide : [1, 2, 3].length < 2 ^ 32 - 20)
    (Nat.le_of_eq (length_sizes_replicate _ _).symm)
  let a := (Party.new (call ⟨[], []⟩ paddingAes Lz4Compress.stored s)).run
    (.replicate k (.write [1, 2, 3]))
  let r : Duplex := ⟨wire a, .replicate (wire a).length (.upTo 0), [], [], []⟩
  have hvalid : ∀ op ∈ List.replicate k (Party.Op.write [1, 2, 3]),
      op.Valid (·.length < 2 ^ 32 - 20) := by
    intro op hop
    rw [List.eq_of_mem_replicate hop]
    exact ⟨hne, by decide⟩
  have hnone : ∀ op ∈ ([] : List Party.Op), op.Valid (·.length < 2 ^ 32 - 20) :=
    List.forall_mem_nil _
  have haccepted' : a.accepted = [[1, 2, 3]] := haccepted
  have hrow : (a.offered.map aesMessageLen).sum ≤ 2028 := by
    rw [offered_idle hidle, haccepted']
    decide
  obtain ⟨-, hall⟩ := carried haes hlib (s := s) (r := r) rfl hvalid hnone (a := a) rfl rfl hrow
    List.prefix_rfl
  obtain ⟨n, hn⟩ := (hall hidle rfl).2 (Nat.le_of_eq (length_sizes_replicate _ _).symm) 8
    (by decide)
  refine ⟨s, r, k, n, ?_, hn.trans (congrArg List.flatten haccepted')⟩
  rintro _ rfl
  exact ⟨haccepted, rfl⟩

end PenetrateAesAndLz4Decorator
end Fuso
