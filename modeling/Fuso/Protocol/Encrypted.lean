import Fuso.Encryption.Decrypt
import Fuso.Encryption.Encrypt
import Fuso.Protocol.Senders
import Mathlib.Data.List.Forall2

/-!
# Senders over an encryptor

Here a packet goes out as one message, and `wbuf` holds what the sink has not taken of it yet,
whoever is polled next. The packets stay whole if the poll that writes out the last of a message is
one of a sender of that packet, and if the sink does not turn an encryptor away in the middle of a
message (`Encrypted.Inv`).
-/

namespace Fuso.Encrypted
open Turn Sink Senders

section
variable {G : Type} {C : Cipher G}

/-- The senders, and what their encryptor does not know: which packet is in `wbuf`, and at which
byte of the wire its message begins. -/
structure Watched (C : Cipher G) where
  senders : Senders (Encryptor C Sink)
  held : Option (Packet × Nat)

namespace Watched

def encryptor (w : Watched C) : Encryptor C Sink := w.senders.writer.inner

def sent (w : Watched C) : Bytes := w.encryptor.target.sent

def start (ps : List Packet) (inner : Encryptor C Sink) : Watched C := ⟨.start ps inner, none⟩

/-- A turn of the sender `i`. -/
def turn (i : Nat) (w : Watched C) : Watched C where
  senders := Senders.turn i w.senders
  held :=
    if (Senders.turn i w.senders).writer.inner.wbuf = none then none
    else if w.encryptor.wbuf = none then
      w.senders.senders[i]?.map fun x => (x.packet, w.sent.length)
    else w.held

theorem after_senders (w : Watched C) (events : List Nat) :
    (after turn w events).senders = after Senders.turn w.senders events := by
  induction events generalizing w with
  | nil => rfl
  | cons i events ih => exact ih (turn i w)

end Watched

/-- What the encryptor has to write when `x` is polled. -/
def pending (this : Encryptor C Sink) (x : Sender) : Bytes :=
  match this.wbuf with
  | some wbuf => wbuf.drop this.wpos
  | none =>
    match (C.encrypt this.rng x.packet.encode).1 with
    | .ok encryptedBuf => encryptedBuf
    | .error _ => []

/-- A poll of `x` may come to this: it finishes no message of another packet, and tears none. -/
def Harmless (w : Watched C) (x : Sender) : Fate → Prop
  | .out => w.encryptor.wbuf ≠ none → w.held.map (·.1) = some x.packet
  | .waits => True
  | .refused => w.encryptor.wbuf ≠ none → w.held.map (·.2) = some w.sent.length
  | .torn => False

instance (w : Watched C) (x : Sender) : ∀ fate, Decidable (Harmless w x fate)
  | .out | .refused => inferInstanceAs (Decidable (_ → _))
  | .waits => isTrue trivial
  | .torn => isFalse id

/-- The turn of `i` is harmless. -/
def Clear (i : Nat) (w : Watched C) : Prop :=
  ∀ x ∈ w.senders.senders[i]?, x.result = none →
    Harmless w x (fate w.encryptor.target.room (pending w.encryptor x).length)

instance (i : Nat) (w : Watched C) : Decidable (Clear i w) :=
  inferInstanceAs (Decidable (∀ x ∈ w.senders.senders[i]?, _))

/-- `f` is a message in which `p` goes out. -/
def Sealed (C : Cipher G) (p : Packet) (f : Bytes) : Prop :=
  ∃ rng rng', C.encrypt rng p.encode = (.ok f, rng')

/-- `part` is what is on the wire of the message in `wbuf`, which begins at `n`. -/
def Held (ps : List Packet) (w : Watched C) (n : Nat) (part : Bytes) : Prop :=
  match w.encryptor.wbuf with
  | none => part = []
  | some wbuf => w.encryptor.wpos < wbuf.length ∧ ∃ p, w.held = some (p, n) ∧ p ∈ ps ∧
      Sealed C p (part ++ wbuf.drop w.encryptor.wpos)

/-- The packets that returned are on the wire, each in a message, and behind them is at most the
beginning of the message in `wbuf`. -/
structure Inv (ps : List Packet) (w : Watched C) : Prop where
  packets : w.senders.senders.map (·.packet) = ps
  fresh : ∀ x ∈ w.senders.senders, x.result = none → x.offset = 0
  wire : ∃ (order : List Packet) (frames : List Bytes) (part : Bytes),
    order.Perm w.senders.returned ∧ List.Forall₂ (Sealed C) order frames ∧
      w.sent = frames.flatten ++ part ∧ Held ps w frames.flatten.length part

variable {ps : List Packet} {w : Watched C} {x : Sender} {this : Encryptor C Sink} {f part : Bytes}
  {order : List Packet} {frames : List Bytes} {i : Nat}

theorem inv_start (ps : List Packet) (room : List (Poll Nat)) (rng : G) :
    Inv ps (Watched.start ps (.new ⟨room, []⟩ rng : Encryptor C Sink)) := by
  refine ⟨by simp [Watched.start, start, Function.comp_def], fun x hx _ => ?_, [], [], [], ?_, .nil,
    rfl, rfl⟩
  · obtain ⟨p, -, rfl⟩ := List.mem_map.1 hx
    rfl
  · rw [Watched.start, returned_start]

/-! ## What a turn leaves -/

/-- The turn of `i` is a poll of `x`, which has written nothing yet. -/
structure Polls (w : Watched C) (i : Nat) (x : Sender) : Prop where
  sender : w.senders.senders[i]? = some x
  unready : x.result = none
  fresh : x.offset = 0

section
variable (h : Polls w i x)
include h

theorem Polls.pollWrite_eq : AsyncWrite.pollWrite w.senders.writer.inner
    (x.packet.encode.drop x.offset) = w.encryptor.pollWrite x.packet.encode := by
  rw [h.fresh, List.drop_zero]
  rfl

theorem Polls.turn_out
    (hp : w.encryptor.pollWrite x.packet.encode = (this, .ready (.ok x.packet.encode.length))) :
    Senders.turn i w.senders = ⟨⟨this⟩, w.senders.senders.set i
      { x with offset := x.packet.encode.length, result := some (.ok ()) }⟩ := by
  rw [turn_ok h.sender h.unready (h.pollWrite_eq.trans hp), h.fresh, Nat.zero_add, if_pos rfl]

theorem Polls.turn_error
    (hp : w.encryptor.pollWrite x.packet.encode = (this, .ready (.error e))) :
    Senders.turn i w.senders =
      ⟨⟨this⟩, w.senders.senders.set i { x with result := some (.error e) }⟩ :=
  Senders.turn_error h.sender h.unready (h.pollWrite_eq.trans hp)

/-- A poll that is not ready, or writes nothing, leaves the senders as they are. -/
theorem Polls.turn_stay (hne : x.packet.encode ≠ [])
    (hp : w.encryptor.pollWrite x.packet.encode = (this, .pending) ∨
      w.encryptor.pollWrite x.packet.encode = (this, .ready (.ok 0))) :
    Senders.turn i w.senders = ⟨⟨this⟩, w.senders.senders⟩ := by
  rcases hp with hp | hp
  · exact turn_pending h.sender h.unready (h.pollWrite_eq.trans hp)
  · refine turn_zero h.sender h.unready ?_ (h.pollWrite_eq.trans hp)
    rw [h.fresh]
    exact List.length_pos_iff.2 hne

/-- The sender is ready, and no message is left in `wbuf`. -/
theorem Polls.ready {x' : Sender} (hinv : Inv ps w)
    (hturn : Senders.turn i w.senders = ⟨⟨this⟩, w.senders.senders.set i x'⟩)
    (hp : x'.packet = x.packet) (hr : x'.result ≠ none)
    (horder : order.Perm
      (if x'.result = some (.ok ()) then x.packet :: w.senders.returned else w.senders.returned))
    (hframes : List.Forall₂ (Sealed C) order frames) (hw : this.wbuf = none)
    (hsent : this.target.sent = frames.flatten) : Inv ps (w.turn i) := by
  have hpackets : (w.senders.senders.set i x').map (·.packet) = ps :=
    (packets_set h.sender hp).trans hinv.packets
  have hret : (returned ⟨⟨this⟩, w.senders.senders.set i x'⟩).Perm
      (if x'.result = some (.ok ()) then x.packet :: w.senders.returned else w.senders.returned) :=
    returned_set h.sender h.unready hp
  refine ⟨?_, fun y hy hy' => ?_, order, frames, [], ?_, hframes, ?_, ?_⟩
  · simpa only [Watched.turn, hturn] using hpackets
  · simp only [Watched.turn, hturn] at hy
    rcases List.mem_or_eq_of_mem_set hy with hy | rfl
    · exact hinv.fresh y hy hy'
    · exact absurd hy' hr
  · simp only [Watched.turn, hturn]
    exact horder.trans hret.symm
  · simp only [Watched.sent, Watched.encryptor, Watched.turn, hturn, List.append_nil]
    exact hsent
  · simp only [Held, Watched.encryptor, Watched.turn, hturn, hw]

/-- A message goes out as a whole, and the sender of its packet returns. -/
theorem Polls.out (hinv : Inv ps w) (horder : order.Perm w.senders.returned)
    (hframes : List.Forall₂ (Sealed C) order frames) (hf : Sealed C x.packet f)
    (hp : w.encryptor.pollWrite x.packet.encode = (this, .ready (.ok x.packet.encode.length)))
    (hw : this.wbuf = none) (hsent : this.target.sent = frames.flatten ++ f) :
    Inv ps (w.turn i) := by
  have hperm : (order ++ [x.packet]).Perm (x.packet :: w.senders.returned) :=
    (List.perm_append_singleton _ _).trans (horder.cons _)
  refine h.ready hinv (h.turn_out hp) rfl (by simp) (by rwa [if_pos rfl])
    (List.rel_append hframes (.cons hf .nil)) hw ?_
  rw [hsent]
  simp

/-- The sender of a packet that cannot be encrypted fails, and nothing else happens. -/
theorem Polls.failed (hinv : Inv ps w) (hp : w.encryptor.pollWrite x.packet.encode =
    (this, .ready (.error e))) (hw : w.encryptor.wbuf = none) (hw' : this.wbuf = none)
    (hsent : this.target.sent = w.sent) : Inv ps (w.turn i) := by
  obtain ⟨order, frames, part, horder, hframes, hwire, hheld⟩ := hinv.wire
  obtain rfl : part = [] := by simpa only [Held, hw] using hheld
  refine h.ready hinv (h.turn_error hp) rfl (by simp) ?_ hframes hw' ?_
  · rwa [if_neg (by simp)]
  · rw [hsent, hwire, List.append_nil]

end

/-- The senders stay as they are, and the message in `wbuf` goes on or begins. -/
theorem Inv.stay (hinv : Inv ps w) (horder : order.Perm w.senders.returned)
    (hframes : List.Forall₂ (Sealed C) order frames)
    (hturn : Senders.turn i w.senders = ⟨⟨this⟩, w.senders.senders⟩)
    (hsent : this.target.sent = frames.flatten ++ part)
    (hheld : Held ps (w.turn i) frames.flatten.length part) : Inv ps (w.turn i) := by
  refine ⟨?_, ?_, order, frames, part, ?_, hframes, ?_, hheld⟩
  · simpa only [Watched.turn, hturn] using hinv.packets
  · simpa only [Watched.turn, hturn] using hinv.fresh
  · simp only [Watched.turn, hturn]
    exact horder
  · simpa only [Watched.sent, Watched.encryptor, Watched.turn, hturn] using hsent

/-! ## Every turn -/

/-- What is to be written when `x` is polled is the rest of a message, the one of its own packet
when `wbuf` is empty. -/
structure Rest (ps : List Packet) (w : Watched C) (x : Sender) (n : Nat) (part rest : Bytes)
    (p : Packet) : Prop where
  packet : p ∈ ps
  message : Sealed C p (part ++ rest)
  held : w.encryptor.wbuf ≠ none → w.held = some (p, n)
  new : w.encryptor.wbuf = none → p = x.packet ∧ part = []

theorem Inv.wrote (hinv : Inv ps w) (hx : Polls w i x) (hne : x.packet.encode ≠ [])
    (hok : Clear i w) (horder : order.Perm w.senders.returned)
    (hframes : List.Forall₂ (Sealed C) order frames) (hsent : w.sent = frames.flatten ++ part)
    (hrest : Rest ps w x frames.flatten.length part (pending w.encryptor x) p)
    (hwrote : w.encryptor.Wrote x.packet.encode (pending w.encryptor x)
      (fate w.encryptor.target.room (pending w.encryptor x).length)) : Inv ps (w.turn i) := by
  have hclear := hok x hx.sender hx.unready
  generalize pending w.encryptor x = rest at *
  cases hfate : fate w.encryptor.target.room rest.length with
  | out =>
    rw [hfate] at hwrote hclear
    obtain ⟨this, hpoll, hw, hs⟩ := hwrote
    have hp : p = x.packet := by
      by_cases hnone : w.encryptor.wbuf = none
      · exact (hrest.new hnone).1
      · simpa [hrest.held hnone] using hclear hnone
    subst hp
    refine hx.out hinv horder hframes hrest.message hpoll hw ?_
    rw [hs, ← List.append_assoc, ← hsent]
    rfl
  | waits =>
    rw [hfate] at hwrote
    obtain ⟨this, wbuf, n, hpoll, hw, hpos, hs, hdrop⟩ := hwrote
    have hturn := hx.turn_stay hne (.inl hpoll)
    have hsent' : this.target.sent = frames.flatten ++ (part ++ rest.take n) := by
      rw [hs, ← List.append_assoc, ← hsent]
      rfl
    refine hinv.stay horder hframes hturn hsent' ?_
    have hheld : (w.turn i).held = some (p, frames.flatten.length) := by
      by_cases hnone : w.encryptor.wbuf = none
      · obtain ⟨rfl, rfl⟩ := hrest.new hnone
        simp [Watched.turn, hturn, hw, hnone, hx.sender, hsent]
      · simp [Watched.turn, hturn, hw, hnone, hrest.held hnone]
    have hmessage : Sealed C p (part ++ rest.take n ++ wbuf.drop this.wpos) := by
      rw [hdrop, List.append_assoc, List.take_append_drop]
      exact hrest.message
    have hthis : (w.turn i).encryptor = this := by
      simp only [Watched.encryptor, Watched.turn, hturn]
    simp only [Held, hthis, hw]
    exact ⟨hpos, p, hheld, hrest.packet, hmessage⟩
  | refused =>
    rw [hfate] at hwrote hclear
    obtain ⟨this, hpoll, hw, hs⟩ := hwrote
    have hnil : part = [] := by
      by_cases hnone : w.encryptor.wbuf = none
      · exact (hrest.new hnone).2
      · have := hclear hnone
        rw [hrest.held hnone, Option.map_some, Option.some.injEq, hsent, List.length_append] at this
        exact List.length_eq_zero_iff.1 (by omega)
    subst hnil
    have hturn := hx.turn_stay hne (.inr hpoll)
    refine hinv.stay horder hframes hturn (hs.trans hsent) ?_
    simp only [Held, Watched.encryptor, Watched.turn, hturn, hw]
  | torn =>
    rw [hfate] at hclear
    exact hclear.elim

theorem Inv.turn (hinv : Inv ps w) (hok : Clear i w) (hps : ∀ p ∈ ps, p.encode ≠ [])
    (hsealed : ∀ p ∈ ps, ∀ f, Sealed C p f → f ≠ []) : Inv ps (w.turn i) := by
  by_cases hx : ∃ x, w.senders.senders[i]? = some x ∧ x.result = none
  · obtain ⟨x, hx, hr⟩ := hx
    have hmem := List.mem_of_getElem? hx
    have hpolls : Polls w i x := ⟨hx, hr, hinv.fresh x hmem hr⟩
    have hp : x.packet ∈ ps := hinv.packets ▸ List.mem_map_of_mem hmem
    obtain ⟨order, frames, part, horder, hframes, hsent, hheld⟩ := hinv.wire
    cases hw : w.encryptor.wbuf with
    | none =>
      obtain rfl : part = [] := by simpa only [Held, hw] using hheld
      obtain ⟨⟨r, rng⟩, hc⟩ : ∃ r, C.encrypt w.encryptor.rng x.packet.encode = r := ⟨_, rfl⟩
      cases r with
      | error e =>
        obtain ⟨this, hpoll, hw', hs⟩ := Encryptor.pollWrite_error hw hc
        exact hpolls.failed hinv hpoll hw hw' hs
      | ok f =>
        have hf : Sealed C x.packet f := ⟨_, _, hc⟩
        have hpend : pending w.encryptor x = f := by simp only [pending, hw, hc]
        refine hinv.wrote hpolls (hps _ hp) hok horder hframes hsent (p := x.packet) ?_ ?_ <;>
          rw [hpend]
        · exact ⟨hp, hf, fun hne => absurd hw hne, fun _ => ⟨rfl, rfl⟩⟩
        · exact Encryptor.pollWrite_new hw hc (hsealed _ hp f hf)
    | some wbuf =>
      simp only [Held, hw] at hheld
      obtain ⟨hlt, p, hheld, hp', hf⟩ := hheld
      have hpend : pending w.encryptor x = wbuf.drop w.encryptor.wpos := by simp only [pending, hw]
      refine hinv.wrote hpolls (hps _ hp) hok horder hframes hsent (p := p) ?_ ?_ <;> rw [hpend]
      · exact ⟨hp', hf, fun _ => hheld, fun hnone => absurd hnone (by simp [hw])⟩
      · exact Encryptor.pollWrite_left hw hlt _
  · have hturn : Senders.turn i w.senders = w.senders :=
      turn_finished fun x hx' hr => hx ⟨x, hx', hr⟩
    obtain ⟨order, frames, part, horder, hframes, hsent, hheld⟩ := hinv.wire
    have hthis : (w.turn i).encryptor = w.encryptor := by
      simp only [Watched.encryptor, Watched.turn, hturn]
    refine hinv.stay horder hframes hturn hsent ?_
    cases hw : w.encryptor.wbuf with
    | none => simpa only [Held, hthis, hw] using hheld
    | some wbuf =>
      have hkeep : (w.turn i).held = w.held := by
        have hw' : w.senders.writer.inner.wbuf = some wbuf := hw
        simp [Watched.turn, hturn, hw, hw']
      simpa only [Held, hthis, hw, hkeep] using hheld

/-! ## What the peer gets -/

/-- What decrypts at the other end. -/
def peer (C : Cipher G) (rng : G) (wire : Bytes) (reads : List Answer) : Encryptor C Duplex :=
  .new (Plain.peer wire reads) rng

/-- The packets of the messages that are complete. -/
theorem decodes_messages {C : Cipher G} (hps : ∀ p ∈ ps, p.WellFormed)
    (hopens : List.Forall₂ C.Opens frames (ps.map Packet.encode)) (hpart : messageFormat.Open part)
    (rng : G) : Decodes (peer C rng) (frames.flatten ++ part) ps := by
  have hpackets := stream_packets hps (Format.open_nil (F := packetFormat) (by decide))
  rw [List.append_nil] at hpackets
  refine decodes_of_stream (S := Encryptor.source C Duplex.source) hps hpackets (fun reads => ?_)
    fun _ hle => hle
  exact ⟨_, rfl, rfl, Nat.zero_le _, frames, _, _, hopens, rfl, stream_messages hopens hpart, rfl⟩

/-- Every message that a sender makes opens at the peer. -/
def Matches (C : Cipher G) (C' : Cipher G') (ps : List Packet) : Prop :=
  ∀ p ∈ ps, ∀ f, Sealed C p f → C'.Opens f p.encode

theorem opens_of_sealed {C' : Cipher G'} (hC : Matches C C' ps) (hmem : ∀ p ∈ order, p ∈ ps)
    (h : List.Forall₂ (Sealed C) order frames) :
    List.Forall₂ C'.Opens frames (order.map Packet.encode) := by
  induction h with
  | nil => exact .nil
  | cons hf _ ih =>
    exact .cons (hC _ (hmem _ (by simp)) _ hf) (ih fun p hp => hmem p (by simp [hp]))

/-- Only a part of the message in `wbuf` is on the wire. -/
theorem Held.isOpen {C' : Cipher G'} (hC : Matches C C' ps) (h : Held ps w n part) :
    messageFormat.Open part := by
  cases hw : w.encryptor.wbuf with
  | none =>
    obtain rfl : part = [] := by simpa only [Held, hw] using h
    exact Format.open_nil (by decide)
  | some wbuf =>
    simp only [Held, hw] at h
    obtain ⟨hlt, p, -, hp, hf⟩ := h
    refine (hC p hp _ hf).frame.open_of_lt (List.prefix_append _ _) ?_
    rw [List.length_append, List.length_drop]
    omega

theorem Inv.uncorrupted {C' : Cipher G'} (hinv : Inv ps w) (hps : ∀ p ∈ ps, p.WellFormed)
    (hC : Matches C C' ps) (rng : G') : Uncorrupted (peer C' rng) w.sent w.senders := by
  obtain ⟨order, frames, part, horder, hframes, hsent, hheld⟩ := hinv.wire
  have hmem : ∀ p ∈ order, p ∈ ps := fun p hp =>
    hinv.packets ▸ mem_of_perm_returned horder hp
  have hwf : ∀ p ∈ order, p.WellFormed := fun p hp => hps p (hmem p hp)
  have hopens := opens_of_sealed hC hmem hframes
  exact ⟨order, horder, hsent ▸ decodes_messages hwf hopens (hheld.isOpen hC) rng⟩

theorem Matches.ne_nil {C' : Cipher G'} (hC : Matches C C' ps) (hp : p ∈ ps) (hf : Sealed C p f) :
    f ≠ [] := by
  obtain ⟨c, rfl, -⟩ := hC p hp f hf
  simp [toLeBytes]

/-- What a run leaves on the wire. -/
theorem uncorrupted_of_admissible {C' : Cipher G'} (hps : ∀ p ∈ ps, p.WellFormed)
    (hC : Matches C C' ps) {room : List (Poll Nat)} {rng : G} {events : List Nat}
    (hok : Admissible Watched.turn Clear
      (Watched.start ps (.new ⟨room, []⟩ rng : Encryptor C Sink)) events) (rng' : G') :
    let s := after turn (start ps (.new ⟨room, []⟩ rng : Encryptor C Sink)) events
    Uncorrupted (peer C' rng') s.writer.inner.target.sent s := by
  have hinv : Inv ps (after Watched.turn
      (Watched.start ps (.new ⟨room, []⟩ rng : Encryptor C Sink)) events) :=
    after_guarded (fun _ _ hinv hclear => hinv.turn hclear (fun p hp => (hps p hp).encode_ne_nil)
      fun _ hp _ hf => hC.ne_nil hp hf) (inv_start ps room rng) hok
  have hpeer := hinv.uncorrupted hps hC rng'
  simp only [Watched.sent, Watched.encryptor, Watched.after_senders] at hpeer
  exact hpeer

end
end Fuso.Encrypted
