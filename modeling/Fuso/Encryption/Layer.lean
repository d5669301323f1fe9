import Fuso.Async.Exact
import Fuso.Async.Outlet
import Fuso.Encryption.Transparent

/-!
# An encryptor over any stream

What `Encryptor.source` says of the reads of an encryptor is said here of its writes: over an outlet
it is an outlet (`Encryptor.outlet`), which leaves the source alone (`Encryptor.exchanges`). When a
part of the messages has arrived, the encryptor at the other end is a source of a part of what was
written (`Encryptor.left_prefix`).
-/

namespace Fuso
open Turn

/-- `f` is a message of which `C` makes `m` again, and of the size for that. -/
structure Sealed (C : Cipher G) (size : Nat → Nat) (f m : Bytes) : Prop where
  opens : C.Opens f m
  length : f.length = size m.length

/-- Every buffer that fits becomes a message for `C'`. -/
structure Seals (C : Cipher G) (C' : Cipher G') (fits : Bytes → Prop) (size : Nat → Nat) :
    Prop where
  message : fits buf → buf ≠ [] → ∀ rng, ∃ f rng', C.encrypt rng buf = (.ok f, rng') ∧
    Sealed C' size f buf

section
variable {C : Cipher G} {size : Nat → Nat} {frames ms : List Bytes}

theorem opens_of_sealed (h : List.Forall₂ (Sealed C size) frames ms) :
    List.Forall₂ C.Opens frames ms :=
  h.imp fun _ _ => Sealed.opens

theorem length_sealed (h : List.Forall₂ (Sealed C size) frames ms) :
    frames.flatten.length = (ms.map (size ·.length)).sum := by
  induction h with
  | nil => rfl
  | cons hf _ ih => rw [List.flatten_cons, List.length_append, hf.length, ih]; rfl

end

theorem AesCrate.Pkcs7.seals {aes : AesCrate} (haes : aes.Pkcs7 iv key) :
    Seals (aesCipher aes iv key) (aesCipher aes iv key) (·.length < 2 ^ 32 - 20)
      (fun n => 4 + 16 * (n / 16 + 1)) where
  message hlen hne _ := by
    obtain ⟨f, hc, hf, hflen⟩ := haes.message hne hlen
    exact ⟨f, (), hc, hf, hflen⟩

theorem RsaCrate.Pkcs1v15.seals {rsa : RsaCrate Publ Priv G} (hrsa : rsa.Pkcs1v15 publ priv)
    (publ' : Publ) (priv' : Priv) :
    Seals (rsaCipher rsa publ priv') (rsaCipher rsa publ' priv) (·.length ≤ 117)
      (fun _ => 132) where
  message hlen hne rng := by
    obtain ⟨f, rng', hc, hf, hflen⟩ := hrsa.message publ' priv' hne hlen rng
    exact ⟨f, rng', hc, hf, hflen⟩

namespace Encryptor
variable {G : Type} {C : Cipher G} {G' : Type} {C' : Cipher G'} {T : Type}

/-! ## Reading -/

section
variable [AsyncRead T]

/-- A round with a buffer is the round with a fresh one of what is left. -/
theorem settle_readStep (buf : ReadBuf) (s : Encryptor C T × Bytes) :
    readStep buf s = (readStep (.new buf.remaining) s).settle id buf.behind := by
  obtain ⟨this, rbuf⟩ := s
  have hput : ∀ data : Bytes, data.length ≤ buf.remaining →
      buf.put ((ReadBuf.new buf.remaining).put data).filled = buf.put data := fun data h =>
    congrArg buf.put (ReadBuf.filled_put (b := .new buf.remaining) h)
  have hnil := buf.behind_new (α := Result Nat) buf.remaining
  simp only [readStep, ReadBuf.remaining_new]
  split
  · split
    · simp only [settle, hnil, id]
    · next decrypted _ =>
      by_cases hle : decrypted.length ≤ buf.remaining
      · simp only [hle, if_true, settle, ReadBuf.behind, hput _ hle, id]
      · simp only [hle, if_false, settle, ReadBuf.behind, hput _ (List.length_take_le _ _), id]
  · generalize (if this.rpos = rbuf.length then
      (({ this with rpos := 0, dinit := true } : Encryptor C T), List.replicate (fromLeBytes rbuf) 0)
      else (this, rbuf)) = s
    split
    · simp only [settle, hnil, id]
    · split
      · simp only [settle, hnil, id]
      · rfl
      · split
        · simp only [settle, hnil, id]
        · rfl

/-- What a poll with a buffer makes of a poll with a fresh one of what is left. -/
def polled (buf : ReadBuf) :
    Encryptor C T × ReadBuf × Poll (Result Nat) → Encryptor C T × ReadBuf × Poll (Result Nat)
  | (this, _, .pending) => (this, buf, .pending)
  | (this, data, .ready r) => (this, buf.put data.filled, .ready r)

theorem pollRead_eq (this : Encryptor C T) (buf : ReadBuf) : AsyncRead.pollRead this buf =
    polled buf (AsyncRead.pollRead this (.new buf.remaining)) := by
  simp only [AsyncRead.pollRead, pollRead, ReadBuf.remaining_new]
  split
  · have hle : (this.cache.readToBuffer buf.remaining).1.length ≤ buf.remaining := by
      rw [Buffer.readToBuffer_fst]
      exact List.length_take_le _ _
    simp only [polled]
    rw [ReadBuf.filled_put (b := .new buf.remaining) hle]
    rfl
  · have hpoll : ∀ s : Encryptor C T × Bytes, poll (readStep buf) (2 ^ 32 + 8) s =
        (poll (readStep (.new buf.remaining)) (2 ^ 32 + 8) s).settle id buf.behind := fun s =>
      poll_settle (I := fun _ => True) (fun _ _ _ _ => trivial) (fun s _ => settle_readStep buf s)
        trivial _
    simp only [pollDecryptRead]
    rw [hpoll]
    generalize poll (readStep (C := C) (T := T) (.new buf.remaining)) _ _ = turn
    cases turn <;> rfl

theorem fresh : Fresh (Encryptor C T) where
  pending this buf {_ _} h := by rw [pollRead_eq, h, polled]
  ready this buf {_ _ _} h := by rw [pollRead_eq, h, polled]
  failed this buf {_ _ _} h := ⟨_, by rw [pollRead_eq, h, polled]⟩

/-- What a read leaves of the half that is written. -/
structure ReadFrame (J : T → Prop) (this this' : Encryptor C T) : Prop where
  wbuf : this'.wbuf = this.wbuf
  wpos : this'.wpos = this.wpos
  rng : this'.rng = this.rng
  target : J this.target → J this'.target

omit [AsyncRead T] in
theorem ReadFrame.trans {J : T → Prop} {this this' this'' : Encryptor C T}
    (h : ReadFrame J this this') (h' : ReadFrame J this' this'') : ReadFrame J this this'' :=
  ⟨h'.wbuf.trans h.wbuf, h'.wpos.trans h.wpos, h'.rng.trans h.rng, h'.target ∘ h.target⟩

theorem readFrame {J : T → Prop} (hJ : ∀ t buf, J t → J (AsyncRead.pollRead t buf).1)
    (this : Encryptor C T) (buf : ReadBuf) :
    ReadFrame J this (AsyncRead.pollRead this buf).1 := by
  have hstep : ∀ s : Encryptor C T × Bytes, ReadFrame J s.1 (readStep buf s).state.1 := by
    rintro ⟨this, rbuf⟩
    simp only [readStep]
    split
    · split
      · exact ⟨rfl, rfl, rfl, id⟩
      · split <;> exact ⟨rfl, rfl, rfl, id⟩
    · generalize hs : (if this.rpos = rbuf.length then
        (({ this with rpos := 0, dinit := true } : Encryptor C T),
          List.replicate (fromLeBytes rbuf) 0) else (this, rbuf)) = s
      have hthis : ReadFrame J this s.1 := by
        rw [← hs]
        split <;> exact ⟨rfl, rfl, rfl, id⟩
      have hread := hJ s.1.target (.new (s.2.length - s.1.rpos))
      split
      · exact hthis
      · split
        · next h => rw [h] at hread; exact hthis.trans ⟨rfl, rfl, rfl, hread⟩
        · next h => rw [h] at hread; exact hthis.trans ⟨rfl, rfl, rfl, hread⟩
        · next h =>
          rw [h] at hread
          split <;> exact hthis.trans ⟨rfl, rfl, rfl, hread⟩
  simp only [AsyncRead.pollRead, pollRead]
  split
  · exact ⟨rfl, rfl, rfl, id⟩
  · have hpoll := poll_state (readStep buf) (R := fun s s' => ReadFrame J s.1 s'.1)
      (fun _ => ⟨rfl, rfl, rfl, id⟩) (fun _ _ _ h h' => h.trans h') hstep (2 ^ 32 + 8)
      (({ this with rbuf := none } : Encryptor C T), this.rbuf.getD (.replicate 4 0))
    have hthis : ReadFrame J this { this with rbuf := none } := ⟨rfl, rfl, rfl, id⟩
    simp only [pollDecryptRead]
    split <;> next h => rw [h] at hpoll; exact hthis.trans hpoll

end

/-! ## Writing -/

section
variable [AsyncWrite T]

/-- What a write leaves of the half that is read. -/
structure WriteFrame (J : T → Prop) (this this' : Encryptor C T) : Prop where
  cache : this'.cache = this.cache
  rbuf : this'.rbuf = this.rbuf
  rpos : this'.rpos = this.rpos
  dinit : this'.dinit = this.dinit
  target : J this.target → J this'.target

theorem writeFrame {J : T → Prop} (hJ : ∀ t buf, J t → J (AsyncWrite.pollWrite t buf).1)
    (this : Encryptor C T) (buf : Bytes) :
    WriteFrame J this (AsyncWrite.pollWrite this buf).1 := by
  have hstep : ∀ f (s : T × Nat), J s.1 → J (writeStep f s).state.1 := by
    rintro f ⟨t, pos⟩ ht
    have hwrite := hJ t (f.drop pos) ht
    simp only [writeStep]
    split
    · next h => rw [h] at hwrite; exact hwrite
    · next h => rw [h] at hwrite; exact hwrite
    · next h =>
      rw [h] at hwrite
      split
      · exact hwrite
      · split <;> exact hwrite
  have hout : ∀ f t pos, J t → J (writeOut f t pos).state.1 := fun f t pos =>
    poll_state (writeStep f) (R := fun s s' => J s.1 → J s'.1) (fun _ => id)
      (fun _ _ _ h h' => h' ∘ h) (hstep f) (f.length + 1) (t, pos)
  simp only [AsyncWrite.pollWrite, pollWrite]
  split
  · simp only [pollEncryptWrite]
    split
    · exact ⟨rfl, rfl, rfl, rfl, id⟩
    · next f rng _ =>
      have ht := hout f this.target 0
      split
      all_goals
        next h =>
        rw [h] at ht
        exact ⟨rfl, rfl, rfl, rfl, ht⟩
  · next wbuf _ =>
    have ht := hout wbuf this.target this.wpos
    split
    all_goals
      next h =>
      rw [h] at ht
      exact ⟨rfl, rfl, rfl, rfl, ht⟩

variable {X : Outlet T}

/-- A message is written out as a whole. -/
theorem writeOut_outlet (h : X.Sending bs f L n t) (hne : f ≠ []) : ∃ t',
    (writeOut f t 0 = .pending (t', 0) ∧ X.Sending bs f L n t' ∧
      (L → X.turns f t' < X.turns f t)) ∨
    (writeOut f t 0 = .ready (t', f.length) (.ok true) ∧ X.Sent (bs ++ [f]) t' ∧
      (L → X.Room n t')) := by
  have hlen : f.length ≠ 0 := by simpa using hne
  obtain ⟨t', ⟨hpoll, h', hlt⟩ | ⟨hpoll, hsent, hroom⟩⟩ := X.poll h
  · exact ⟨t', .inl ⟨by simp only [writeOut, poll, writeStep, List.drop_zero, hpoll], h', hlt⟩⟩
  · exact ⟨t', .inr ⟨by simp only [writeOut, poll, writeStep, List.drop_zero, hpoll, hlen,
      Nat.zero_add, if_false, if_true], hsent, hroom⟩⟩

/-- The messages of the buffers `ms` are at the target, behind `pre`, and nothing else. -/
def Idle (X : Outlet T) (C' : Cipher G') (size : Nat → Nat) (pre ms : List Bytes)
    (this : Encryptor C T) : Prop :=
  this.wbuf = none ∧
    ∃ frames, List.Forall₂ (Sealed C' size) frames ms ∧ X.Sent (pre ++ frames) this.target

/-- A buffer is being written: its message is still to be made, or the target takes it. -/
inductive Writing (X : Outlet T) (C' : Cipher G') (size : Nat → Nat) (pre ms : List Bytes)
    (buf : Bytes) (L : Prop) (n : Nat) (this : Encryptor C T) : Prop where
  | idle {f : Bytes} {rng : G} : Idle X C' size pre ms this →
      C.encrypt this.rng buf = (.ok f, rng) → Sealed C' size f buf →
      (L → X.Room (X.cost f.length + n) this.target) → Writing X C' size pre ms buf L n this
  | partly : this.wbuf = some f → this.wpos = 0 → List.Forall₂ (Sealed C' size) frames ms →
      Sealed C' size f buf → X.Sending (pre ++ frames) f L n this.target →
      Writing X C' size pre ms buf L n this

/-- How many polls are left at most. -/
def turns (X : Outlet T) (buf : Bytes) (this : Encryptor C T) : Nat :=
  match this.wbuf with
  | some f => X.turns f this.target
  | none =>
    match (C.encrypt this.rng buf).1 with
    | .ok f => X.turns f this.target
    | .error _ => 0

variable {size : Nat → Nat} {pre ms : List Bytes} {buf : Bytes} {L : Prop} {n : Nat}
  {this : Encryptor C T}

/-- A new encryptor has sent nothing behind what its target has taken. -/
theorem idle_new {t : T} (h : X.Sent pre t) (rng : G) :
    Idle X C' size pre [] (new t rng : Encryptor C T) :=
  ⟨rfl, [], .nil, by rwa [List.append_nil]⟩

theorem idle_concat {this' : Encryptor C T} (hw : this'.wbuf = none)
    (hsealed : List.Forall₂ (Sealed C' size) frames ms) (hf : Sealed C' size f buf)
    (h : X.Sent (pre ++ frames ++ [f]) this'.target) :
    Idle X C' size pre (ms ++ [buf]) this' := by
  refine ⟨hw, frames ++ [f], List.rel_append hsealed (.cons hf .nil), ?_⟩
  rwa [← List.append_assoc]

/-- A poll waits or has taken the whole buffer. -/
theorem Writing.poll (h : Writing X C' size pre ms buf L n this) (hX : ∀ f, X.fits f) :
    ∃ this' : Encryptor C T,
      (AsyncWrite.pollWrite this buf = (this', .pending) ∧ Writing X C' size pre ms buf L n this' ∧
        (L → turns X buf this' < turns X buf this)) ∨
      (AsyncWrite.pollWrite this buf = (this', .ready (.ok buf.length)) ∧
        Idle X C' size pre (ms ++ [buf]) this' ∧ (L → X.Room n this'.target)) := by
  simp only [AsyncWrite.pollWrite, pollWrite]
  cases h with
  | @idle f rng hidle hc hf hroom =>
    obtain ⟨hw, frames, hsealed, hsent⟩ := hidle
    have hne := hf.opens.ne_nil
    have hsending := X.start hsent (hX f) hne hroom
    obtain ⟨t', ⟨hout, h', hlt⟩ | ⟨hout, hsent', hroom'⟩⟩ := writeOut_outlet hsending hne
    · refine ⟨{ this with rng, target := t', wpos := 0, wbuf := some f }, .inl ⟨?_,
        .partly rfl rfl hsealed hf h', fun hL => ?_⟩⟩
      · simp only [hw, pollEncryptWrite, hc, hout, List.drop_zero]
      · simpa only [turns, hw, hc] using hlt hL
    · refine ⟨{ this with rng, target := t' }, .inr ⟨?_, idle_concat hw hsealed hf hsent', hroom'⟩⟩
      simp only [hw, pollEncryptWrite, hc, hout]
  | @partly f frames hw hpos hsealed hf hsending =>
    obtain ⟨t', ⟨hout, h', hlt⟩ | ⟨hout, hsent', hroom'⟩⟩ :=
      writeOut_outlet hsending hf.opens.ne_nil
    · refine ⟨{ this with target := t', wpos := 0 }, .inl ⟨?_,
        .partly hw rfl hsealed hf h', fun hL => ?_⟩⟩
      · simp only [hw, hpos, hout]
      · simpa only [turns, hw] using hlt hL
    · refine ⟨{ this with target := t', wpos := f.length, wbuf := none }, .inr ⟨?_,
        idle_concat rfl hsealed hf hsent', hroom'⟩⟩
      simp only [hw, hpos, hout]

/-- An encryptor over an outlet that takes every buffer, of which `pre` was written before. -/
def outlet {fits : Bytes → Prop} (hC : Seals C C' fits size) (X : Outlet T) (hX : ∀ f, X.fits f)
    (pre : List Bytes) : Outlet (Encryptor C T) where
  fits := fits
  cost len := X.cost (size len)
  Room n this := X.Room n this.target
  Sent := Idle X C' size pre
  Sending := Writing X C' size pre
  turns := turns X
  start {_ this _ _ _} h hfits hne hroom := by
    obtain ⟨f, rng, hc, hf⟩ := hC.message hfits hne this.rng
    exact .idle h hc hf (hf.length ▸ hroom)
  poll h := h.poll hX

end
/-! ## Both -/

section
variable {size : Nat → Nat} {pre ms : List Bytes} {b : Bytes} {this this' : Encryptor C T}

theorem Left.of_writeFrame [AsyncRead T] {S : Source T} (h : Left S this b)
    (hframe : ∀ wire, WriteFrame (S.Left · wire) this this') : Left S this' b := by
  obtain ⟨b', rfl, hsize, hpos, frames, ms, wire, hms, hleft, hstream, hb⟩ := h
  obtain ⟨hcache, hrbuf, hrpos, hdinit, htarget⟩ := hframe wire
  refine ⟨b', by rw [hcache], ?_⟩
  rw [hrbuf]
  refine ⟨hdinit ▸ hsize, hrpos ▸ hpos, frames, ms, wire, hms, htarget hleft, ?_, hb⟩
  rw [got, hdinit, hrpos]
  exact hstream

theorem Idle.of_readFrame [AsyncWrite T] {X : Outlet T} (h : Idle X C' size pre ms this)
    (hframe : ∀ bs, ReadFrame (X.Sent bs) this this') : Idle X C' size pre ms this' := by
  obtain ⟨hw, frames, hsealed, hsent⟩ := h
  exact ⟨(hframe []).wbuf.trans hw, frames, hsealed, (hframe _).target hsent⟩

theorem exchanges [AsyncRead T] [AsyncWrite T] {S : Source T} {X : Outlet T}
    {fits : Bytes → Prop} (hC : Seals C C' fits size) (hX : ∀ f, X.fits f) (pre : List Bytes)
    (h : Exchanges S X) : Exchanges (source C S) (outlet hC X hX pre) where
  sent_read {_ this buf} hsent :=
    hsent.of_readFrame fun _ => readFrame (fun _ _ => h.sent_read) this buf
  sending_read {_ _ L n this buf} hsending := by
    cases hsending with
    | idle hidle hc hf hroom =>
      have hframe := fun bs => readFrame (J := X.Sent bs) (fun _ _ => h.sent_read) this buf
      rw [← (hframe []).rng] at hc
      exact .idle (hidle.of_readFrame hframe) hc hf fun hL =>
        (readFrame (fun _ _ => h.room_read) this buf).target (hroom hL)
    | @partly f frames hw hpos hsealed hf hsending =>
      have hframe := readFrame (J := X.Sending (pre ++ frames) f L n)
        (fun _ _ => h.sending_read) this buf
      exact .partly (hframe.wbuf.trans hw) (hframe.wpos.trans hpos) hsealed hf
        (hframe.target hsending)
  room_read {_ this buf} hroom := (readFrame (fun _ _ => h.room_read) this buf).target hroom
  left_write {this _ buf} hleft :=
    hleft.of_writeFrame fun _ => writeFrame (fun _ _ => h.left_write) this buf
  live_write {this buf} hlive := (writeFrame (fun _ _ => h.live_write) this buf).target hlive

end

/-! ## From one end to the other -/

section
variable {size : Nat → Nat} {frames ms pre : List Bytes} {wire : Bytes}

/-- All the messages have arrived. -/
theorem left_all [AsyncRead T] {S : Source T} (hopens : List.Forall₂ C.Opens frames ms)
    {target : T} (h : S.Left target frames.flatten) (rng : G) :
    (source C S).Left (new target rng) ms.flatten := by
  have hopen : messageFormat.Open [] := Format.open_nil (by decide)
  refine ⟨ms.flatten, rfl, rfl, Nat.zero_le _, frames, ms, frames.flatten, hopens, h, ?_, rfl⟩
  have hs := stream_messages hopens hopen
  rw [List.append_nil] at hs
  simpa [got, new] using hs

/-- What has arrived of some messages are the first ones and the beginning of the next. -/
theorem stream_prefix (hopens : List.Forall₂ C.Opens frames ms) (h : wire <+: frames.flatten) :
    ∃ n, messageFormat.Stream (frames.take n) wire := by
  induction hopens generalizing wire with
  | nil =>
    obtain rfl := List.prefix_nil.1 h
    exact ⟨0, .of_open (Format.open_nil (by decide))⟩
  | @cons f m frames ms hf _ ih =>
    rw [List.flatten_cons] at h
    by_cases hlt : wire.length < f.length
    · have hpart := List.prefix_of_prefix_length_le h (List.prefix_append f _) (Nat.le_of_lt hlt)
      exact ⟨0, .of_open (hf.frame.open_of_lt hpart hlt)⟩
    · obtain ⟨wire, rfl⟩ := List.prefix_of_prefix_length_le (List.prefix_append f _) h
        (Nat.le_of_not_lt hlt)
      obtain ⟨n, hn⟩ := ih ((List.prefix_append_right_inj f).1 h)
      exact ⟨n + 1, hn.cons hf.frame⟩

/-- A part of the messages has arrived. -/
theorem left_prefix [AsyncRead T] {S : Source T} (hopens : List.Forall₂ C.Opens frames ms)
    {target : T} (h : S.Left target wire) (hwire : wire <+: frames.flatten) (rng : G) :
    ∃ b, b <+: ms.flatten ∧ (source C S).Left (new target rng) b := by
  obtain ⟨n, hn⟩ := stream_prefix hopens hwire
  refine ⟨(ms.take n).flatten, (List.take_prefix n ms).flatten, _, rfl, rfl, Nat.zero_le _, _, _,
    wire, List.forall₂_take n hopens, h, ?_, rfl⟩
  simpa [got, new] using hn

/-- What was taken, as messages at the target. -/
theorem took_target [AsyncWrite T] {X : Outlet T} {fits : Bytes → Prop}
    {hC : Seals C C' fits size} {hX : ∀ f, X.fits f} {this : Encryptor C T}
    (h : (outlet hC X hX pre).Took ms this) : ∃ frames ms',
      List.Forall₂ (Sealed C' size) frames ms' ∧ ms' <+: ms ∧
        X.Took (pre ++ frames) this.target := by
  rcases h with ⟨-, frames, hsealed, hsent⟩ | ⟨ms, buf, L, n, rfl, hsending⟩
  · exact ⟨frames, ms, hsealed, List.prefix_rfl, .inl hsent⟩
  · cases hsending with
    | idle hidle _ _ _ =>
      obtain ⟨-, frames, hsealed, hsent⟩ := hidle
      exact ⟨frames, ms, hsealed, List.prefix_append _ _, .inl hsent⟩
    | @partly f frames _ _ hsealed hf hsending =>
      exact ⟨frames ++ [f], ms ++ [buf], List.rel_append hsealed (.cons hf .nil), List.prefix_rfl,
        .inr ⟨_, f, _, _, (List.append_assoc ..).symm, hsending⟩⟩

theorem sent_of_took_nil [AsyncWrite T] {X : Outlet T} {fits : Bytes → Prop}
    {hC : Seals C C' fits size} {hX : ∀ f, X.fits f} {this : Encryptor C T}
    (h : (outlet hC X hX pre).Took [] this) : X.Sent pre this.target := by
  rcases h with ⟨-, frames, hsealed, hsent⟩ | ⟨ms, buf, L, n, hnil, -⟩
  · cases hsealed
    rwa [List.append_nil] at hsent
  · exact absurd hnil.symm (List.append_ne_nil_of_right_ne_nil _ (List.cons_ne_nil _ _))

end
end Encryptor
end Fuso
