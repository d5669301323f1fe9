import Fuso.Kcp.Window

/-!
# When KCP is updated

`check` says for how long the update task sleeps: up to the next flush or the next segment that has
to be sent again, and not longer than `interval` (`check_least`). A task that sleeps for so long
writes what one writes that updates all the time (`sleep_transparent`).
-/

namespace Fuso.ThirdParty

namespace Kcp
open KcpM

/-- The smallest delay up to a segment that has to be sent again, when none is smaller than `least`.
There is none when one has to be sent already. -/
def packetDelay (current : UInt32) : UInt32 → List KcpSegment → Option UInt32
  | least, [] => some least
  | least, seg :: buf =>
    let diff := timediff seg.resendts current
    if diff ≤ 0 then none
    else packetDelay current (if .ofNat diff.toNat < least then .ofNat diff.toNat else least) buf

/-- The delay up to the next `update`, in milliseconds. -/
def check (k : Kcp) (current : UInt32) : UInt32 :=
  if k.updated = false then 0
  else
    let slap := timediff current k.tsFlush
    let tsFlush := if 10000 ≤ slap ∨ slap < -10000 then current else k.tsFlush
    if 0 ≤ timediff current tsFlush then 0
    else
      let tmFlush : UInt32 := .ofNat (timediff tsFlush current).toNat
      match packetDelay current 0xFFFFFFFF k.sndBuf with
      | none => 0
      | some tmPacket => min (min tmPacket tmFlush) k.interval

/-- There is something to do at the time: the first update, a flush, or a segment that has to be
sent again. -/
def Urgent (k : Kcp) (time : UInt32) : Prop :=
  k.updated = false ∨ ({ k with current := time } : Kcp).resync.due = true ∨
    ∃ seg ∈ k.sndBuf, timediff seg.resendts time ≤ 0

variable {k : Kcp} {current time : UInt32}

/-! ## The time up to a deadline -/

theorem timediff_swap (h : timediff a b ≠ -2 ^ 31) : timediff b a = -timediff a b := by
  have := a.toNat_lt
  have := b.toNat_lt
  rw [timediff_eq, Int.bmod_def] at h ⊢
  rw [timediff_eq, Int.bmod_def]
  omega

/-- Later by `j` a deadline is closer by `j`. -/
theorem timediff_later {deadline : UInt32} (h : (j.toNat : Int) ≤ timediff deadline current) :
    timediff deadline (current + j) = timediff deadline current - j.toNat := by
  have := deadline.toNat_lt
  have := current.toNat_lt
  have := j.toNat_lt
  rw [timediff_eq, Int.bmod_def] at h ⊢
  rw [timediff_eq, Int.bmod_def]
  simp only [UInt32.toNat_add]
  omega

theorem timediff_lt (later earlier : UInt32) : timediff later earlier < 2 ^ 31 := by
  rw [timediff_eq, Int.bmod_def]
  omega

theorem resync_due (k : Kcp) (time : UInt32) : ({ k with current := time } : Kcp).resync.due =
    decide (0 ≤ timediff time (if 10000 ≤ timediff time k.tsFlush ∨
      timediff time k.tsFlush < -10000 then time else k.tsFlush)) := by
  unfold resync due
  simp only
  split <;> rfl

/-- A flush is due unless it is ahead, and not too far. -/
theorem resync_due_iff : ({ k with current := time } : Kcp).resync.due = true ↔
    timediff k.tsFlush time ≤ 0 ∨ 10000 < timediff k.tsFlush time := by
  have hself : timediff time time = 0 := by
    rw [timediff_eq, Int.sub_self]
    rfl
  have hswap : timediff time k.tsFlush = -timediff k.tsFlush time ∨
      timediff time k.tsFlush = -2 ^ 31 ∧ timediff k.tsFlush time = -2 ^ 31 := by
    rw [timediff_eq, timediff_eq, Int.bmod_def, Int.bmod_def]
    have := k.tsFlush.toNat_lt
    have := time.toNat_lt
    omega
  rw [resync_due, decide_eq_true_iff]
  split <;> omega

/-! ## What `check` returns -/

theorem packetDelay_none {least : UInt32} {buf : List KcpSegment}
    (h : packetDelay current least buf = none) :
    ∃ seg ∈ buf, timediff seg.resendts current ≤ 0 := by
  induction buf generalizing least with
  | nil => cases h
  | cons seg buf ih =>
    unfold packetDelay at h
    simp only at h
    split at h
    · next hlost => exact ⟨seg, List.mem_cons_self, hlost⟩
    · obtain ⟨seg', hseg', hlost⟩ := ih h
      exact ⟨seg', List.mem_cons_of_mem _ hseg', hlost⟩

/-- The delay is that of the first segment that has to be sent again. -/
structure FirstResend (current least : UInt32) (buf : List KcpSegment) (delay : UInt32) : Prop where
  le_least : delay ≤ least
  le : ∀ seg ∈ buf, (delay.toNat : Int) ≤ timediff seg.resendts current
  pos : ∀ seg ∈ buf, 0 < timediff seg.resendts current
  sharp : delay = least ∨ ∃ seg ∈ buf, timediff seg.resendts current = delay.toNat

theorem packetDelay_some {least delay : UInt32} {buf : List KcpSegment}
    (h : packetDelay current least buf = some delay) : FirstResend current least buf delay := by
  induction buf generalizing least with
  | nil =>
    cases h
    exact ⟨UInt32.le_refl _, nofun, nofun, .inl rfl⟩
  | cons seg buf ih =>
    unfold packetDelay at h
    simp only at h
    split at h
    · cases h
    · next hpos =>
      have hlt := timediff_lt seg.resendts current
      -- the delay of the segment as a number of the machine
      have hdiff : ((UInt32.ofNat (timediff seg.resendts current).toNat).toNat : Int) =
          timediff seg.resendts current := by
        rw [UInt32.toNat_ofNat']
        omega
      obtain ⟨hle, hall, hallpos, hsharp⟩ := ih h
      rw [UInt32.le_iff_toNat_le] at hle
      have hboth : delay.toNat ≤ least.toNat ∧
          (delay.toNat : Int) ≤ timediff seg.resendts current := by
        split at hle
        · next hless =>
          rw [UInt32.lt_iff_toNat_lt] at hless
          omega
        · next hless =>
          rw [UInt32.lt_iff_toNat_lt] at hless
          omega
      refine ⟨UInt32.le_iff_toNat_le.2 hboth.1, ?_, ?_, ?_⟩
      · rintro seg' (_ | ⟨_, hseg'⟩)
        · exact hboth.2
        · exact hall seg' hseg'
      · rintro seg' (_ | ⟨_, hseg'⟩)
        · exact Int.not_le.1 hpos
        · exact hallpos seg' hseg'
      · rcases hsharp with hsharp | ⟨seg', hseg', hsharp⟩
        · split at hsharp
          · exact .inr ⟨seg, List.mem_cons_self, by rw [hsharp, hdiff]⟩
          · exact .inl hsharp
        · exact .inr ⟨seg', List.mem_cons_of_mem _ hseg', hsharp⟩

/-- The task sleeps for `delay`: nothing is to be done before. -/
structure Sleeps (k : Kcp) (current delay : UInt32) : Prop where
  updated : k.updated = true
  flush_le : (delay.toNat : Int) ≤ timediff k.tsFlush current
  flush_near : timediff k.tsFlush current ≤ 10000
  resend_le : ∀ seg ∈ k.sndBuf, (delay.toNat : Int) ≤ timediff seg.resendts current
  le_interval : delay ≤ k.interval
  sharp : delay = k.interval ∨ timediff k.tsFlush current = delay.toNat ∨
    ∃ seg ∈ k.sndBuf, timediff seg.resendts current = delay.toNat

theorem check_cases (k : Kcp) (current : UInt32) :
    k.check current = 0 ∧ k.Urgent current ∨ k.Sleeps current (k.check current) := by
  by_cases hupdated : k.updated = false
  · exact .inl ⟨if_pos hupdated, .inl hupdated⟩
  by_cases hdue : ({ k with current } : Kcp).resync.due = true
  · refine .inl ⟨?_, .inr (.inl hdue)⟩
    rw [resync_due, decide_eq_true_iff] at hdue
    rw [check, if_neg hupdated]
    exact if_pos hdue
  · rw [resync_due_iff, not_or, Int.not_le, Int.not_lt] at hdue
    have hswap : timediff current k.tsFlush = -timediff k.tsFlush current :=
      timediff_swap (by omega)
    have hnear : ¬ (10000 ≤ timediff current k.tsFlush ∨ timediff current k.tsFlush < -10000) := by
      omega
    have hcheck : k.check current = match packetDelay current 0xFFFFFFFF k.sndBuf with
        | none => 0
        | some tmPacket =>
          min (min tmPacket (.ofNat (timediff k.tsFlush current).toNat)) k.interval := by
      rw [check, if_neg hupdated]
      simp only [if_neg hnear]
      exact if_neg (by omega)
    cases hpacket : packetDelay current 0xFFFFFFFF k.sndBuf with
    | none =>
      rw [hcheck, hpacket]
      exact .inl ⟨rfl, .inr (.inr (packetDelay_none hpacket))⟩
    | some tmPacket =>
      obtain ⟨-, hall, -, hsharp⟩ := packetDelay_some hpacket
      have hflush : ((UInt32.ofNat (timediff k.tsFlush current).toNat).toNat : Int) =
          timediff k.tsFlush current := by
        rw [UInt32.toNat_ofNat']
        omega
      have hmin : ∀ a b : UInt32, (min a b).toNat = min a.toNat b.toNat := UInt32.toNat_min
      right
      rw [hcheck, hpacket]
      generalize UInt32.ofNat (timediff k.tsFlush current).toNat = tmFlush at hflush ⊢
      simp only
      refine ⟨by simpa using hupdated, ?_, hdue.2, fun seg hseg => ?_, ?_, ?_⟩
      · rw [hmin, hmin]
        omega
      · have := hall seg hseg
        rw [hmin, hmin]
        omega
      · rw [UInt32.le_iff_toNat_le, hmin]
        omega
      · have hchoice : min (min tmPacket tmFlush) k.interval = k.interval ∨
            (min (min tmPacket tmFlush) k.interval).toNat = tmFlush.toNat ∨
            (min (min tmPacket tmFlush) k.interval).toNat = tmPacket.toNat := by
          rw [← UInt32.toNat_inj, hmin, hmin]
          omega
        rcases hchoice with hinterval | hfirst | hfirst
        · exact .inl hinterval
        · exact .inr (.inl (by omega))
        · rcases hsharp with rfl | ⟨seg, hseg, hsharp⟩
          · -- without a segment the flush comes first
            have hmax : (0xFFFFFFFF : UInt32).toNat = 4294967295 := rfl
            rw [hmin, hmin] at hfirst
            omega
          · exact .inr (.inr ⟨seg, hseg, by omega⟩)

/-! ## Sleeping -/

variable {j : UInt32}

/-- Nothing is to be done while the task sleeps. -/
theorem Sleeps.not_urgent {delay : UInt32} (h : k.Sleeps current delay) (hj : j < delay) :
    ¬ k.Urgent (current + j) := by
  rw [UInt32.lt_iff_toNat_lt] at hj
  have hflush := h.flush_le
  have hnear := h.flush_near
  rintro (hupdated | hdue | ⟨seg, hseg, hlost⟩)
  · rw [h.updated] at hupdated
    cases hupdated
  · rw [resync_due_iff, timediff_later (by omega)] at hdue
    omega
  · have hle := h.resend_le seg hseg
    rw [timediff_later (by omega)] at hlost
    omega

/-- A sleep that is not as long as the interval ends when there is something to do. -/
theorem Sleeps.urgent {delay : UInt32} (h : k.Sleeps current delay) (hless : delay < k.interval) :
    k.Urgent (current + delay) := by
  rcases h.sharp with hsame | hflush | ⟨seg, hseg, hlost⟩
  · exact absurd (hsame ▸ hless) (UInt32.lt_irrefl _)
  · refine .inr (.inl ?_)
    rw [resync_due_iff, timediff_later (by omega)]
    omega
  · refine .inr (.inr ⟨seg, hseg, ?_⟩)
    rw [timediff_later (by omega)]
    omega

/-- `check` is the time up to the first moment with something to do, or the interval when this is
less. -/
theorem check_least (k : Kcp) (current : UInt32) :
    k.check current ≤ k.interval ∧ (∀ j < k.check current, ¬ k.Urgent (current + j)) ∧
      (k.check current < k.interval → k.Urgent (current + k.check current)) := by
  rcases k.check_cases current with ⟨hzero, hurgent⟩ | hsleeps
  · rw [hzero]
    refine ⟨UInt32.zero_le, fun j hj => absurd hj UInt32.not_lt_zero, fun _ => ?_⟩
    rwa [UInt32.add_zero]
  · exact ⟨hsleeps.le_interval, fun j hj => hsleeps.not_urgent hj, hsleeps.urgent⟩

/-! ## Updates that come early -/

theorem start_updated (h : k.updated = true) (time : UInt32) :
    k.start time = { k with current := time } := if_pos h

/-- While the task could sleep an update does nothing. -/
theorem update_early (hopen : k.closeState = .no) (h : ¬ k.Urgent time) (clock : Nat)
    (o : Output) : update time clock (k, o) = (.ok (), { k with current := time }, o) := by
  unfold Urgent at h
  rw [not_or, not_or] at h
  obtain ⟨hupdated, hdue, -⟩ := h
  have hstart : k.start time = { k with current := time } :=
    start_updated (by simpa using hupdated) time
  -- the clock is not far from the flush
  have hresync : ({ k with current := time } : Kcp).resync = { k with current := time } := by
    unfold resync
    simp only
    split
    · next hfar =>
      refine absurd ?_ hdue
      have hself : timediff time time = 0 := by
        rw [timediff_eq, Int.sub_self]
        rfl
      rw [resync_due, if_pos hfar, hself]
      rfl
    · rfl
  have hflush : updateFlush time (k, o) = (.ok (), { k with current := time }, o) := by
    rw [updateFlush, modify_bind, get_bind, when_apply, hstart, hresync, if_neg]
    rwa [hresync] at hdue
  rw [update, get_bind, when_bind_neg _ _ _ (by simp [closed, hopen]), bind_ok _ _ hflush,
    updateClose_open hopen]

/-- An update does not depend on when the last one was. -/
theorem update_current (hopen : k.closeState = .no) (last : UInt32) (clock : Nat) (o : Output) :
    update time clock ({ k with current := last }, o) = update time clock (k, o) := by
  have hstart : ({ k with current := last } : Kcp).start time = k.start time := by
    unfold start
    split <;> rfl
  rw [update, get_bind, get_bind, when_bind_neg _ _ _ (by simp [closed, hopen]),
    when_bind_neg _ _ _ (by simp [closed, hopen])]
  have hflush : updateFlush time ({ k with current := last }, o) = updateFlush time (k, o) := by
    rw [updateFlush, modify_bind, modify_bind, hstart]
  simp only [Bind.bind, hflush]

/-- While a task could sleep it may update at any times, and the update behind them does the same as
without them. -/
theorem sleep_transparent (k : Kcp) (current : UInt32) (o : Output) (hopen : k.closeState = .no)
    (early : List UInt32) (hearly : ∀ j ∈ early, j < k.check current) (time : UInt32)
    (clock : Nat) :
    update time clock (early.foldl (fun s j => (update (current + j) clock s).2) (k, o)) =
      update time clock (k, o) := by
  have hquiet : ∀ j ∈ early, ¬ k.Urgent (current + j) := fun j hj => by
    rcases k.check_cases current with ⟨hzero, -⟩ | hsleeps
    · have hlt := hearly j hj
      rw [hzero] at hlt
      exact absurd hlt UInt32.not_lt_zero
    · exact hsleeps.not_urgent (hearly j hj)
  have hrun : ∀ last, ∃ last', early.foldl (fun s j => (update (current + j) clock s).2)
      ({ k with current := last }, o) = ({ k with current := last' }, o) := by
    clear hearly
    induction early with
    | nil => exact fun last => ⟨last, rfl⟩
    | cons j early ih =>
      intro last
      have hstep := update_early hopen (hquiet j List.mem_cons_self) clock o
      rw [List.foldl_cons, update_current hopen, hstep]
      exact ih (fun j hj => hquiet j (List.mem_cons_of_mem _ hj)) (current + j)
  obtain ⟨last, hlast⟩ := hrun k.current
  rw [hlast, update_current hopen]

theorem sleep_transparent_new :
    let k := (update 20 0 (Kcp.new 7 0, ⟨[], []⟩)).2.1
    update 120 0 ([1, 60, 99].foldl (fun s j => (update (20 + j) 0 s).2) (k, ⟨[], []⟩)) =
      update 120 0 (k, ⟨[], []⟩) := by
  refine sleep_transparent _ 20 ⟨[], []⟩ (by decide +kernel) [1, 60, 99] ?_ 120 0
  rw [List.forall_mem_cons, List.forall_mem_cons, List.forall_mem_singleton]
  decide +kernel

end Kcp
end Fuso.ThirdParty
