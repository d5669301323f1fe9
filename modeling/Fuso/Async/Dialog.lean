import Fuso.Async.Exact
import Fuso.Async.Outlet

/-!
# Dialogs

An `async` function that reads and writes a stream with `read_exact` and `write_all` is a `Dialog`,
and `Dialog.step` polls it. What it says and returns when it is to read some bytes is `Dialog.feed`.
Polled over a source and an outlet that leave each other alone, a dialog never says anything else
(`Dialog.tells`) and returns nothing else (`Dialog.returns`), and with answers enough it returns
(`Dialog.exists_returns`).
-/

namespace Fuso
open Turn

/-- A function that reads `n` bytes, or writes a buffer, and goes on. -/
inductive Dialog (α : Type) where
  | ret (r : Result α)
  | read (n : Nat) (k : Bytes → Dialog α)
  | write (buf : Bytes) (d : Dialog α)

namespace Dialog
variable {α β : Type}

def bind : Dialog α → (α → Dialog β) → Dialog β
  | .ret (.ok a), f => f a
  | .ret (.error e), _ => .ret (.error e)
  | .read n k, f => .read n fun bytes => (k bytes).bind f
  | .write buf d, f => .write buf (d.bind f)

instance : Monad Dialog where
  pure a := .ret (.ok a)
  bind := bind

/-- `read_exact` with a buffer of `n` bytes. -/
def readExact (n : Nat) : Dialog Bytes := .read n fun bytes => .ret (.ok bytes)

def writeAll (buf : Bytes) : Dialog Unit := .write buf (.ret (.ok ()))

@[simp] theorem pure_eq (a : α) : (pure a : Dialog α) = .ret (.ok a) := rfl
@[simp] theorem ok_bind (a : α) (f : α → Dialog β) : (.ret (.ok a) : Dialog α) >>= f = f a := rfl
@[simp] theorem error_bind (e : Error) (f : α → Dialog β) :
    (.ret (.error e) : Dialog α) >>= f = .ret (.error e) := rfl
@[simp] theorem readExact_bind (n : Nat) (f : Bytes → Dialog β) :
    readExact n >>= f = .read n f := rfl
@[simp] theorem writeAll_bind (buf : Bytes) (f : Unit → Dialog β) :
    writeAll buf >>= f = .write buf (f ()) := rfl

/-- Where control is. -/
inductive At (α : Type) where
  | ret (r : Result α)
  | reading (buf : ReadBuf) (k : Bytes → Dialog α)
  | writing (s : Bytes × Nat) (d : Dialog α)

def start : Dialog α → At α
  | .ret r => .ret r
  | .read n k => .reading (.new n) k
  | .write buf d => .writing (buf, 0) d

def step [AsyncRead W] [AsyncWrite W] : At α × W → Turn (At α × W) (Result α)
  | (.ret r, stream) => .ready (.ret r, stream) r
  | (.reading buf k, stream) =>
    (ReadExact.step (buf, stream)).andThen (fun s => (.reading s.1 k, s.2))
      fun s _ => .again ((k s.1.filled).start, s.2)
  | (.writing s d, stream) =>
    (WriteAll.step (s, stream)).andThen (fun s => (.writing s.1 d, s.2))
      fun s _ => .again (d.start, s.2)

/-- What it says when it is to read `b`, buffer by buffer, and what it returns if that is enough,
with the bytes that are left of `b`. -/
def feed : Dialog α → Bytes → List Bytes × Option (Result α × Bytes)
  | .ret r, b => ([], some (r, b))
  | .read n k, b => if n ≤ b.length then (k (b.take n)).feed (b.drop n) else ([], none)
  | .write buf d, b => (buf :: (d.feed b).1, (d.feed b).2)

/-- Every buffer that is written is not empty and fits. -/
def Fits (fits : Bytes → Prop) : Dialog α → Prop
  | .ret _ => True
  | .read _ k => ∀ bytes, (k bytes).Fits fits
  | .write buf d => (buf ≠ [] ∧ fits buf) ∧ d.Fits fits

/-- What the writes cost when it is to read `b`. -/
def costs (cost : Nat → Nat) : Dialog α → Bytes → Nat
  | .ret _, _ => 0
  | .read n k, b => if n ≤ b.length then (k (b.take n)).costs cost (b.drop n) else 0
  | .write buf d, b => cost buf.length + d.costs cost b

/-! ## What is said -/

section
variable {d rest : Dialog α} {done more bytes b : Bytes} {out : List Bytes}

/-- `d` has read `done` and said `out`, and goes on as `rest`. -/
def After (d : Dialog α) (done : Bytes) (out : List Bytes) (rest : Dialog α) : Prop :=
  ∀ more, d.feed (done ++ more) = (out ++ (rest.feed more).1, (rest.feed more).2)

theorem after_nil (d : Dialog α) : d.After [] [] d := fun _ => rfl

theorem After.read (h : d.After done out (.read n k)) (hlen : bytes.length = n) :
    d.After (done ++ bytes) out (k bytes) := by
  intro more
  rw [List.append_assoc, h, feed, if_pos (by rw [List.length_append]; omega),
    List.take_left' hlen, List.drop_left' hlen]

theorem After.write (h : d.After done out (.write buf rest)) :
    d.After done (out ++ [buf]) rest := by
  intro more
  rw [h, feed, List.append_assoc, List.singleton_append]

theorem After.out_prefix (h : d.After done out rest) : out <+: (d.feed done).1 := by
  have hfeed := h []
  rw [List.append_nil] at hfeed
  rw [hfeed]
  exact List.prefix_append _ _

end

/-! ## A run -/

section
variable {W : Type u} [AsyncRead W] [AsyncWrite W] (S : Source W) (X : Outlet W)

/-- What is known in a run of `d` on a stream that had taken `base`. With `H` the bytes `b` were
left to be read. -/
inductive Stage (d : Dialog α) (base : List Bytes) (H : Prop) (b : Bytes) : At α × W → Prop where
  | ret : d.After done out (.ret r) → X.Sent (base ++ out) w →
      (H → ∃ left, b = done ++ left ∧ S.Left w left) → Stage d base H b (.ret r, w)
  | reading {buf : ReadBuf} : d.After done out (.read buf.capacity k) →
      (∀ bytes, (k bytes).Fits X.fits) → X.Sent (base ++ out) w →
      (H → ∃ left, b = done ++ left ∧ Filling S buf.capacity left (buf, w)) →
      Stage d base H b (.reading buf k, w)
  | writing : d.After done out (.write buf rest) → rest.Fits X.fits → buf ≠ [] →
      X.Sending (base ++ out) buf False 0 w → (H → ∃ left, b = done ++ left ∧ S.Left w left) →
      Stage d base H b (.writing (buf, 0) rest, w)

/-- The stream has taken what `d` says to the first bytes of those that were left. -/
def Tells (d : Dialog α) (base : List Bytes) (H : Prop) (b : Bytes) (w : W) : Prop :=
  ∃ done out, out <+: (d.feed done).1 ∧ X.Took (base ++ out) w ∧ (H → done <+: b)

variable {S X} {d rest : Dialog α} {base out : List Bytes} {done b : Bytes} {H : Prop} {w w' : W}
  {s : At α × W}

theorem stage_start (h : d.After done out rest) (hfits : rest.Fits X.fits)
    (hsent : X.Sent (base ++ out) w) (hleft : H → ∃ left, b = done ++ left ∧ S.Left w left) :
    Stage S X d base H b (rest.start, w) := by
  cases rest with
  | ret r => exact .ret h hsent hleft
  | read n k =>
    refine .reading h hfits hsent fun hH => ?_
    obtain ⟨left, heq, hl⟩ := hleft hH
    exact ⟨left, heq, rfl, left, rfl, hl⟩
  | write buf rest =>
    obtain ⟨⟨hne, hbuf⟩, hrest⟩ := hfits
    exact .writing h hrest hne (X.start hsent hbuf hne False.elim) hleft

theorem Stage.tells (h : Stage S X d base H b s) : Tells X d base H b s.2 := by
  cases h with
  | ret h hsent hleft =>
    exact ⟨_, _, h.out_prefix, .inl hsent, fun hH => (hleft hH).elim fun left h => ⟨left, h.1.symm⟩⟩
  | reading h _ hsent hleft =>
    exact ⟨_, _, h.out_prefix, .inl hsent, fun hH => (hleft hH).elim fun left h => ⟨left, h.1.symm⟩⟩
  | writing h _ _ hsending hleft =>
    exact ⟨_, _, h.write.out_prefix, .inr ⟨_, _, _, _, (List.append_assoc ..).symm, hsending⟩,
      fun hH => (hleft hH).elim fun left h => ⟨left, h.1.symm⟩⟩

/-- A turn: it goes on, it is over, or a read has failed. -/
theorem Stage.step (hR : Fresh W) (hX : Exchanges S X) (h : Stage S X d base H b s) :
    (∃ s', Goes Dialog.step s s' ∧ Stage S X d base H b s') ∨
    (∃ r, s.1 = .ret r ∧ Dialog.step s = .ready s r) ∨
    ∃ s' e, Dialog.step s = .ready s' (.error e) ∧ Tells X d base H b s'.2 := by
  cases h with
  | ret h hsent hleft => exact .inr (.inl ⟨_, rfl, rfl⟩)
  | @reading done out k w buf h hfits hsent hleft =>
    rcases ReadExact.step_cases hR (fun _ _ => hX.sent_read) hsent buf with
      ⟨hfull, hstep⟩ | ⟨buf', w', hg, hcap, hsent'⟩ | ⟨buf', w', e, hstep, hsent'⟩
    · refine .inl ⟨((k buf.filled).start, w), .inl ?_, stage_start (h.read hfull) (hfits _) hsent
        fun hH => ?_⟩
      · simp only [Dialog.step, hstep, andThen]
      · obtain ⟨left, rfl, -, more, rfl, hl⟩ := hleft hH
        exact ⟨more, (List.append_assoc ..).symm, hl⟩
    · refine .inl ⟨(.reading buf' k, w'), ?_, .reading (hcap.symm ▸ h) hfits hsent' fun hH => ?_⟩
      · rcases hg with hg | hg
        · exact .inl (by simp only [Dialog.step, hg, andThen])
        · exact .inr (by simp only [Dialog.step, hg, andThen])
      · obtain ⟨left, heq, hfilling⟩ := hleft hH
        exact ⟨left, heq, hcap.symm ▸ Source.filling_of_goes hR hfilling hg⟩
    · refine .inr (.inr ⟨(.reading buf' k, w'), e, ?_, done, out, h.out_prefix, .inl hsent',
        fun hH => ?_⟩)
      · simp only [Dialog.step, hstep, andThen]
      · obtain ⟨left, heq, -⟩ := hleft hH
        exact ⟨left, heq.symm⟩
  | @writing done out buf rest w h hfits hne hsending hleft =>
    have hleft' : H → ∃ left, b = done ++ left ∧ S.Left (pollWrite w buf).1 left := fun hH =>
      (hleft hH).imp fun left h => ⟨h.1, hX.left_write h.2⟩
    obtain ⟨w', rfl, ⟨hstep, hsending'⟩ | ⟨hstep, hsent⟩⟩ := X.writeAll_step hne hsending
    · exact .inl ⟨(.writing (buf, 0) rest, (pollWrite w buf).1),
        .inr (by simp only [Dialog.step, hstep, andThen]), .writing h hfits hne hsending' hleft'⟩
    · refine .inl ⟨(rest.start, (pollWrite w buf).1), .inl ?_, stage_start h.write hfits ?_ hleft'⟩
      · simp only [Dialog.step, hstep, andThen]
      · rwa [← List.append_assoc]

theorem stage_new (hfits : d.Fits X.fits) (hsent : X.Sent base w) (b : Bytes) :
    Stage S X d base (S.Left w b) b (d.start, w) :=
  stage_start (after_nil d) hfits (by rwa [List.append_nil]) fun h => ⟨b, rfl, h⟩

/-- In every state the stream has taken what the dialog says, whatever it reads. -/
theorem tells (hR : Fresh W) (hX : Exchanges S X) (hfits : d.Fits X.fits) (hsent : X.Sent base w)
    (H : Visits step (d.start, w) s) (b : Bytes) : Tells X d base (S.Left w b) b s.2 := by
  have hpost := H.post (I := Stage S X d base (S.Left w b) b)
    (Q := fun s => Tells X d base (S.Left w b) b s.2) (fun s hs => ?_) (stage_new hfits hsent b)
  · exact hpost.elim Stage.tells id
  · rcases hs.step hR hX with hgoes | ⟨r, -, hstep⟩ | ⟨s', e, hstep, htells⟩
    · exact .inl hgoes
    · exact .inr ⟨s, r, hstep, hs.tells⟩
    · exact .inr ⟨s', _, hstep, htells⟩

/-- A result is the one for the bytes that were read, and the stream has taken what was said to
them. -/
theorem returns (hR : Fresh W) (hX : Exchanges S X) (hfits : d.Fits X.fits) (hsent : X.Sent base w)
    (H : Drives step (d.start, w) s (.ok a)) (b : Bytes) : ∃ done out,
      d.feed done = (out, some (.ok a, [])) ∧ X.Sent (base ++ out) s.2 ∧
        (S.Left w b → ∃ left, b = done ++ left ∧ S.Left s.2 left) := by
  have hpost := H.post (I := Stage S X d base (S.Left w b) b)
    (Q := fun s r => r = .ok a → s.1 = .ret (.ok a) ∧ Stage S X d base (S.Left w b) b s)
    (fun s hs => ?_) (stage_new hfits hsent b) rfl
  · obtain ⟨q, w'⟩ := s
    obtain ⟨rfl, hs⟩ := hpost
    cases hs with
    | @ret done out _ _ h hsent hleft =>
      refine ⟨done, out, ?_, hsent, hleft⟩
      have hfeed := h []
      rwa [List.append_nil, feed, List.append_nil] at hfeed
  · rcases hs.step hR hX with hgoes | ⟨r, hr, hstep⟩ | ⟨s', e, hstep, -⟩
    · exact .inl hgoes
    · exact .inr ⟨s, r, hstep, fun h => ⟨h ▸ hr, hs⟩⟩
    · exact .inr ⟨s', _, hstep, nofun⟩

theorem step_reading (k : Bytes → Dialog α) (t : ReadBuf × W) :
    step ((.reading t.1 k, t.2) : At α × W) = (ReadExact.step t).andThen
      (fun s => (.reading s.1 k, s.2)) fun s _ => .again ((k s.1.filled).start, s.2) := rfl

theorem step_writing (d : Dialog α) (t : (Bytes × Nat) × W) :
    step ((.writing t.1 d, t.2) : At α × W) = (WriteAll.step t).andThen
      (fun s => (.writing s.1 d, s.2)) fun s _ => .again (d.start, s.2) := rfl

/-- With answers enough for what is left and room for what is said, it returns. -/
theorem exists_returns (hR : Fresh W) (hX : Exchanges S X) (hfits : d.Fits X.fits)
    (hsent : X.Sent base w) (hleft : S.Left w b) (hlive : S.live w)
    (hfeed : d.feed b = (out, some (r, left))) (hroom : X.Room (d.costs X.cost b + n) w) :
    ∃ s, Drives step (d.start, w) s r ∧ X.Sent (base ++ out) s.2 ∧ S.Left s.2 left ∧
      S.live s.2 ∧ X.Room n s.2 := by
  induction d generalizing w base b out n with
  | ret r =>
    cases hfeed
    rw [costs, Nat.zero_add] at hroom
    exact ⟨(.ret r, w), .ready rfl, by rwa [List.append_nil], hleft, hlive, hroom⟩
  | read m k ih =>
    rw [feed] at hfeed
    rw [costs] at hroom
    split at hfeed
    · next hle =>
      rw [if_pos hle] at hroom
      obtain ⟨buf, w', H, hfilled, hleft', hlive'⟩ := Source.exists_readExact hR hleft hlive hle
      have hsent' := ReadExact.keeps hR (fun _ _ => hX.sent_read) hsent H
      have hroom' := ReadExact.keeps hR (fun _ _ => hX.room_read) hroom H
      obtain ⟨s, Hs, hs⟩ := ih _ (hfits _) hsent' hleft' hlive' hfeed hroom'
      rw [← hfilled] at Hs
      have Hd := Drives.andThen (step_reading k) H rfl Hs
      exact ⟨s, Hd, hs⟩
    · cases hfeed
  | write buf d ih =>
    rw [feed, Prod.mk.injEq] at hfeed
    obtain ⟨rfl, hfeed⟩ := hfeed
    rw [costs, Nat.add_assoc] at hroom
    obtain ⟨⟨hne, hbuf⟩, hrest⟩ := hfits
    obtain ⟨t, w', H, hsent', hroom'⟩ := X.exists_writeAll hne hbuf hsent hroom
    have hleft' := WriteAll.keeps (J := (S.Left · b)) (fun _ _ => hX.left_write) hleft H
    have hlive' := WriteAll.keeps (J := S.live) (fun _ _ => hX.live_write) hlive H
    obtain ⟨s, Hs, hs⟩ := ih hrest hsent' hleft' hlive' (Prod.ext rfl hfeed) hroom'
    have Hd := Drives.andThen (step_writing d) H rfl Hs
    refine ⟨s, Hd, ?_⟩
    rwa [List.append_assoc, List.singleton_append] at hs

end
end Dialog
end Fuso
