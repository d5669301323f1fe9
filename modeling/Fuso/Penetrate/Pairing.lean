import Fuso.Penetrate.Server

/-!
# Data connections reach the visitors they were asked for

`Paired` links the requests that are out to the wait list: the id of each one belongs to the visitor
that it was sent for, and no visitor has two. An id can be taken again only when it is not in the
list, and it is in the list until its one answer is handled, whatever becomes of the task of its
visitor. Every event keeps this (`Paired.step`), so the server hands a data connection to the
visitor that it answers (`paired`).
-/

namespace Fuso

variable {id : UInt32} {s s' : Penetrate} {v w : Nat}

/-- The request of the task is not out. -/
def Task.Fresh (t : Task) : Prop := t = .mock ∨ ∃ id, t = .send id false

/-- The visitor has received the data connection, or will. -/
def Visitor.Holds (vis : Visitor) (conn : Request) : Prop :=
  vis.channel = some conn ∨ vis.task = .copy conn

theorem Visitor.holds_send {vis : Visitor} (h : (vis.send conn).Holds r) :
    vis.Holds r ∨ r = conn := by
  unfold Visitor.send at h
  split at h
  · exact .inl h
  · rcases h with h | h
    · exact .inr (Option.some.inj h).symm
    · exact .inl (.inr h)

namespace Penetrate

/-- A server and the answers it has sent to channels. -/
structure History where
  server : Penetrate
  deliveries : List (Request × Nat)

def History.step (e : Event) (h : History) : History where
  server := h.server.step e
  deliveries := h.deliveries ++ delivered e h.server

/-- The server behind the events, from its start. -/
def run (events : List Event) : History := after History.step ⟨.new, []⟩ events

/-- The visitors whose requests were sent, in the order in which they were answered and, those that
are not, in which they are out. -/
def senders (s : Penetrate) (done : List (Request × Nat)) : List Nat :=
  done.map (·.1.visitor) ++ s.requests.map Request.visitor

/-- The requests that are out and the wait list. -/
structure Paired (s : Penetrate) (done : List (Request × Nat)) : Prop where
  owned : ∀ r ∈ s.requests, s.mqueue.lookup r.id = some r.visitor
  unsent : ∀ v id, s.task v = some (.send id false) → s.mqueue.lookup id = some v
  nodup : (senders s done).Nodup
  sent : ∀ v ∈ senders s done, ∃ t, s.task v = some t ∧ ¬t.Fresh
  own : ∀ d ∈ done, d.2 = d.1.visitor
  holds : ∀ (v : Nat) (vis : Visitor) (r : Request), s.visitors[v]? = some vis → vis.Holds r →
    (r, v) ∈ done ∧ r.answer = .map
  closed : ∀ (v : Nat) (vis : Visitor), s.visitors[v]? = some vis → vis.closed = true →
    ∃ r, (r, v) ∈ done ∧ r.answer = .mapError

variable {done : List (Request × Nat)}

theorem paired_new : Paired .new [] :=
  ⟨by simp [Penetrate.new], by simp [Penetrate.new, task], by simp [senders, Penetrate.new],
    by simp [senders, Penetrate.new], by simp, by simp [Penetrate.new], by simp [Penetrate.new]⟩

/-! ## The events of the visitors -/

/-- One visitor changes: it holds nothing new, and its request is not taken back. -/
theorem Paired.modify (h : Paired s done) {f : Visitor → Visitor}
    (hqueue : ∀ id w, s.mqueue.lookup id = some w → s'.mqueue.lookup id = some w)
    (hvisitors : s'.visitors = s.visitors.modify v f) (hrequests : s'.requests = s.requests)
    (hunsent : ∀ vis id, s.visitors[v]? = some vis → (f vis).task = .send id false →
      s'.mqueue.lookup id = some v)
    (hfresh : ∀ vis, s.visitors[v]? = some vis → (f vis).task.Fresh → vis.task.Fresh)
    (hholds : ∀ vis r, (f vis).Holds r → vis.Holds r)
    (hclosed : ∀ vis, (f vis).closed = true → vis.closed = true) : Paired s' done := by
  have hsenders : senders s' done = senders s done := by rw [senders, senders, hrequests]
  refine ⟨?_, ?_, hsenders ▸ h.nodup, ?_, h.own, ?_, ?_⟩
  · exact fun r hr => hqueue _ _ (h.owned r (hrequests ▸ hr))
  · intro w id ht
    obtain ⟨vis', hvis', ht'⟩ := task_eq_some.1 ht
    obtain ⟨vis, hvis, ⟨rfl, rfl⟩ | ⟨-, rfl⟩⟩ := exists_of_modify (hvisitors ▸ hvis')
    · exact hunsent vis id hvis ht'
    · exact hqueue _ _ (h.unsent w id (task_eq_some.2 ⟨vis', hvis, ht'⟩))
  · intro w hw
    obtain ⟨t, ht, hnf⟩ := h.sent w (hsenders ▸ hw)
    obtain ⟨vis, hvis, rfl⟩ := task_eq_some.1 ht
    by_cases hvw : v = w
    · subst hvw
      refine ⟨(f vis).task, task_eq_some.2 ⟨f vis, ?_, rfl⟩, fun hf => hnf (hfresh vis hvis hf)⟩
      rw [hvisitors, getElem?_modify, if_pos rfl, hvis]
      rfl
    · refine ⟨vis.task, task_eq_some.2 ⟨vis, ?_, rfl⟩, hnf⟩
      rw [hvisitors, getElem?_modify, if_neg hvw, hvis]
  · intro w vis' r hvis' hr
    obtain ⟨vis, hvis, ⟨rfl, rfl⟩ | ⟨-, rfl⟩⟩ := exists_of_modify (hvisitors ▸ hvis')
    · exact h.holds v vis r hvis (hholds vis r hr)
    · exact h.holds w vis' r hvis hr
  · intro w vis' hvis' hc
    obtain ⟨vis, hvis, ⟨rfl, rfl⟩ | ⟨-, rfl⟩⟩ := exists_of_modify (hvisitors ▸ hvis')
    · exact h.closed v vis hvis (hclosed vis hc)
    · exact h.closed w vis' hvis hc

/-- The task of a visitor goes on to a point behind its request. -/
theorem Paired.goOn (h : Paired s done) {t : Task} (hsent : ¬t.Fresh) (hcopy : ∀ r, t ≠ .copy r) :
    Paired (s.goOn v t) done := by
  refine h.modify (fun _ _ hid => hid) rfl rfl ?_ (fun _ _ hf => absurd hf hsent) ?_
    fun _ hc => hc
  · intro vis id _ ht
    exact absurd (.inr ⟨id, ht⟩) hsent
  · rintro vis r (hr | hr)
    · exact .inl hr
    · exact absurd hr (hcopy r)

theorem Paired.visit (h : Paired s done) :
    Paired { s with visitors := s.visitors ++ [.new] } done := by
  refine ⟨h.owned, ?_, h.nodup, ?_, h.own, ?_, ?_⟩
  · intro w id ht
    obtain ⟨vis, hvis, ht'⟩ := task_eq_some.1 ht
    rcases of_visit hvis with hvis | rfl
    · exact h.unsent w id (task_eq_some.2 ⟨vis, hvis, ht'⟩)
    · cases ht'
  · intro w hw
    obtain ⟨t, ht, hnf⟩ := h.sent w hw
    obtain ⟨vis, hvis, rfl⟩ := task_eq_some.1 ht
    exact ⟨vis.task, task_eq_some.2 ⟨vis, getElem?_visit hvis, rfl⟩, hnf⟩
  · intro w vis r hvis hr
    rcases of_visit hvis with hvis | rfl
    · exact h.holds w vis r hvis hr
    · exact absurd hr (by simp [Visitor.Holds, Visitor.new])
  · intro w vis hvis hc
    rcases of_visit hvis with hvis | rfl
    · exact h.closed w vis hvis hc
    · cases hc

/-- A free id is no id of a request that is out or will be. -/
theorem Paired.mocked (h : Paired s done) (hmock : s.task v = some .mock) (peer : Peer) :
    Paired (s.mocked v peer) done := by
  unfold Penetrate.mocked
  split
  · exact h
  · next mqueue id hpush =>
    have hqueue : ∀ k w, s.mqueue.lookup k = some w → mqueue.lookup k = some w :=
      fun k w => MQueue.lookup_of_push hpush
    have hid : mqueue.lookup id = some v := by rw [MQueue.lookup_push hpush, if_pos rfl]
    have hfresh : ∀ vis, s.visitors[v]? = some vis → vis.task.Fresh := fun vis hvis =>
      .inl (task_of_getElem? hmock hvis)
    cases peer with
    | route =>
      refine h.modify hqueue rfl rfl ?_ (fun vis hvis _ => hfresh vis hvis) ?_ fun _ hc => hc
      · rintro vis k - hk
        obtain rfl : id = k := by simpa using hk
        exact hid
      · exact fun vis r hr => hr.imp_right fun hr => nomatch hr
    | finished | unknown =>
      refine h.modify hqueue rfl rfl (fun vis k _ hk => nomatch hk)
        (fun vis hvis _ => hfresh vis hvis) ?_ fun _ hc => hc
      exact fun vis r hr => hr.imp_right fun hr => nomatch hr

theorem Paired.recv (h : Paired s done) (ht : s.task v = some (.wait k)) :
    Paired { s with visitors := s.visitors.modify v Visitor.recv } done := by
  refine h.modify (fun _ _ hid => hid) rfl rfl ?_ ?_ ?_ ?_
  · intro vis id hvis hsend
    have hwait := task_of_getElem? ht hvis
    obtain ⟨conn, -, hrecv⟩ | ⟨-, hrecv⟩ | hrecv := vis.recv_cases <;> simp [hrecv, hwait] at hsend
  · intro vis hvis hf
    have hwait := task_of_getElem? ht hvis
    obtain ⟨conn, -, hrecv⟩ | ⟨-, hrecv⟩ | hrecv := vis.recv_cases <;>
      simp [Task.Fresh, hrecv, hwait] at hf
  · intro vis r hr
    obtain ⟨conn, hconn, hrecv⟩ | ⟨-, hrecv⟩ | hrecv := vis.recv_cases
    · have hr' : conn = r := by simpa [Visitor.Holds, hrecv] using hr
      exact .inl (hr' ▸ hconn)
    · exact .inl (by simpa [Visitor.Holds, hrecv] using hr)
    · exact hrecv ▸ hr
  · intro vis hc
    obtain ⟨conn, -, hrecv⟩ | ⟨-, hrecv⟩ | hrecv := vis.recv_cases <;> simpa [hrecv] using hc

/-- The request of a visitor is sent. -/
theorem Paired.write (h : Paired s done) (ht : s.task v = some (.send id false)) :
    Paired { s.goOn v (.send id true) with requests := s.requests ++ [⟨id, v, .notYet⟩] } done := by
  have hid := h.unsent v id ht
  have hnew : v ∉ senders s done := by
    intro hv
    obtain ⟨t, ht', hnf⟩ := h.sent v hv
    obtain rfl := Option.some.inj (ht.symm.trans ht')
    exact hnf (.inr ⟨id, rfl⟩)
  have hout : Paired (s.goOn v (.send id true)) done :=
    h.goOn (by simp [Task.Fresh]) (by simp)
  let s' : Penetrate :=
    { s.goOn v (.send id true) with requests := s.requests ++ [⟨id, v, .notYet⟩] }
  have hsenders : senders s' done = senders s done ++ [v] := by simp [senders, s']
  refine ⟨?_, hout.unsent, ?_, ?_, hout.own, hout.holds, hout.closed⟩
  · intro r hr
    rcases List.mem_append.1 hr with hr | hr
    · exact hout.owned r hr
    · rw [List.mem_singleton.1 hr]
      exact hid
  · rw [hsenders]
    exact List.nodup_append.2 ⟨h.nodup, by simp, fun w hw w' hw' hww => hnew <| by
      rwa [← List.mem_singleton.1 hw', ← hww]⟩
  · intro w hw
    rw [hsenders] at hw
    rcases List.mem_append.1 hw with hw | hw
    · exact hout.sent w hw
    · rw [List.mem_singleton.1 hw]
      exact ⟨_, task_goOn ht _, by simp [Task.Fresh]⟩

/-! ## The events of the requests -/

/-- The requests change, but none of them is new. -/
theorem Paired.requests (h : Paired s done) {requests : List Request}
    (howned : ∀ r ∈ requests, ∃ r' ∈ s.requests, r'.id = r.id ∧ r'.visitor = r.visitor)
    (hsub : (requests.map Request.visitor).Sublist (s.requests.map Request.visitor)) :
    Paired { s with requests } done := by
  have hsenders : (senders { s with requests } done).Sublist (senders s done) :=
    (List.Sublist.refl _).append hsub
  refine ⟨?_, h.unsent, h.nodup.sublist hsenders, fun w hw => h.sent w (hsenders.subset hw), h.own,
    h.holds, h.closed⟩
  intro r hr
  obtain ⟨r', hr', hid, hv⟩ := howned r hr
  exact hid ▸ hv ▸ h.owned r' hr'

theorem Paired.answer (h : Paired s done) (hi : s.requests[i]? = some ⟨id, v, a⟩) (a' : Answered) :
    Paired { s with requests := s.requests.set i ⟨id, v, a'⟩ } done := by
  refine h.requests ?_ ?_
  · intro r hr
    rcases List.mem_or_eq_of_mem_set hr with hr | rfl
    · exact ⟨r, hr, rfl, rfl⟩
    · exact ⟨_, List.mem_of_getElem? hi, rfl, rfl⟩
  · have hsame : (s.requests.map Request.visitor).set i v = s.requests.map Request.visitor :=
      set_eq_self (by rw [List.getElem?_map, hi]; rfl)
    rw [List.map_set, hsame]

theorem Paired.lose (h : Paired s done) (i : Nat) :
    Paired { s with requests := s.requests.eraseIdx i } done :=
  h.requests (fun r hr => ⟨r, List.mem_of_mem_eraseIdx hr, rfl, rfl⟩)
    ((List.eraseIdx_sublist _ _).map _)

theorem Paired.stop (h : Paired s done) : Paired s.stop done := by
  have hsub : (senders s.stop done).Sublist (senders s done) :=
    (List.Sublist.refl _).append (List.nil_sublist _)
  refine ⟨fun r hr => (List.not_mem_nil hr).elim, ?_, h.nodup.sublist hsub, ?_, h.own, ?_, ?_⟩
  · intro w id ht
    obtain ⟨vis, hvis, ht'⟩ := task_eq_some.1 ht
    obtain ⟨vis', -, rfl⟩ := exists_of_stop hvis
    cases ht'
  · intro w hw
    obtain ⟨t, ht, -⟩ := h.sent w (hsub.subset hw)
    obtain ⟨vis, hvis, rfl⟩ := task_eq_some.1 ht
    exact ⟨.ended, by simp [task, Penetrate.stop, hvis], by simp [Task.Fresh]⟩
  · intro w vis r hvis hr
    obtain ⟨vis', hvis', rfl⟩ := exists_of_stop hvis
    exact h.holds w vis' r hvis' (hr.imp_right fun hr => absurd hr (by simp))
  · intro w vis hvis hc
    obtain ⟨vis', hvis', rfl⟩ := exists_of_stop hvis
    exact h.closed w vis' hvis' hc

/-! ## The events of the answers -/

theorem answered_eq (h : s.mqueue.lookup k = some v) (i : Nat) (f : Visitor → Visitor) :
    s.answered i k f = { s with
      mqueue := (s.mqueue.remove k).1
      requests := s.requests.eraseIdx i
      visitors := s.visitors.modify v f } := by
  unfold Penetrate.answered
  rw [show s.mqueue.remove k = ((s.mqueue.remove k).1, some v) from Prod.ext rfl h]

/-- The visitor is taken from the requests that are out to those that are answered. -/
theorem senders_eraseIdx {r : Request} (hi : s.requests[i]? = some r)
    (done : List (Request × Nat)) :
    (senders { s with requests := s.requests.eraseIdx i } (done ++ [(r, r.visitor)])).Perm
      (senders s done) := by
  obtain ⟨hlt, hget⟩ := List.getElem?_eq_some_iff.1 hi
  have hcons := (List.getElem_cons_eraseIdx_perm hlt).map Request.visitor
  rw [hget] at hcons
  simp only [senders, List.map_append, List.map_cons, List.map_nil, List.append_assoc]
  exact hcons.append_left _

/-- The answer of a request is handled: its id is taken out of the list, and its visitor is the one
whose channel was there. -/
theorem Paired.answered (h : Paired s done) {r : Request} (hi : s.requests[i]? = some r)
    {f : Visitor → Visitor} (htask : ∀ vis, (f vis).task = vis.task)
    (hholds : ∀ vis r', (f vis).Holds r' → vis.Holds r' ∨ r' = r ∧ r.answer = .map)
    (hclosed : ∀ vis, (f vis).closed = true → vis.closed = true ∨ r.answer = .mapError) :
    Paired (s.answered i r.id f) (done ++ [(r, r.visitor)]) := by
  have hmem := List.mem_of_getElem? hi
  have hid := h.owned r hmem
  have hperm := senders_eraseIdx hi done
  rw [answered_eq hid]
  have hnodup := hperm.nodup_iff.2 h.nodup
  have hother : ∀ r' ∈ s.requests.eraseIdx i, r'.id ≠ r.id := by
    intro r' hr' heq
    have hsame : r'.visitor = r.visitor :=
      Option.some.inj ((h.owned r' (List.mem_of_mem_eraseIdx hr')).symm.trans (heq ▸ hid))
    have hdisj := (List.nodup_append.1 hnodup).2.2
    exact hdisj r.visitor (by simp) r'.visitor (List.mem_map_of_mem hr') hsame.symm
  refine ⟨?_, ?_, hnodup, ?_, ?_, ?_, ?_⟩
  · intro r' hr'
    rw [MQueue.lookup_remove, if_neg (hother r' hr')]
    exact h.owned r' (List.mem_of_mem_eraseIdx hr')
  · intro w k ht
    rw [task_modify rfl htask] at ht
    have hk := h.unsent w k ht
    rw [MQueue.lookup_remove, if_neg, hk]
    rintro rfl
    obtain rfl := Option.some.inj (hk.symm.trans hid)
    obtain ⟨t, ht', hnf⟩ := h.sent _ (List.mem_append_right _ (List.mem_map_of_mem hmem))
    obtain rfl := Option.some.inj (ht.symm.trans ht')
    exact hnf (.inr ⟨_, rfl⟩)
  · intro w hw
    rw [task_modify rfl htask]
    exact h.sent w (hperm.mem_iff.1 hw)
  · intro d hd
    rcases List.mem_append.1 hd with hd | hd
    · exact h.own d hd
    · rw [List.mem_singleton.1 hd]
  · intro w vis' r' hvis' hr'
    obtain ⟨vis, hvis, ⟨rfl, rfl⟩ | ⟨-, rfl⟩⟩ := exists_of_modify hvis'
    · rcases hholds vis r' hr' with hr' | ⟨rfl, hmap⟩
      · exact (h.holds _ vis r' hvis hr').imp_left (List.mem_append_left _)
      · exact ⟨by simp, hmap⟩
    · exact (h.holds w vis' r' hvis hr').imp_left (List.mem_append_left _)
  · intro w vis' hvis' hc
    obtain ⟨vis, hvis, ⟨rfl, rfl⟩ | ⟨-, rfl⟩⟩ := exists_of_modify hvis'
    · rcases hclosed vis hc with hc | herr
      · obtain ⟨r', hr', ha⟩ := h.closed _ vis hvis hc
        exact ⟨r', List.mem_append_left _ hr', ha⟩
      · exact ⟨r, by simp, herr⟩
    · obtain ⟨r', hr', ha⟩ := h.closed w vis' hvis hc
      exact ⟨r', List.mem_append_left _ hr', ha⟩

/-! ## Every event -/

theorem Paired.accept (h : Paired s done) (hi : s.requests[i]? = some ⟨id, v, .map⟩) :
    Paired (s.answered i id fun vis => vis.send ⟨id, v, .map⟩) (done ++ [(⟨id, v, .map⟩, v)]) :=
  h.answered hi (fun vis => vis.task_send _)
    (fun _ _ hr => (Visitor.holds_send hr).imp_right (⟨·, rfl⟩))
    fun vis hc => .inl (vis.closed_send _ ▸ hc)

theorem Paired.mapError (h : Paired s done) (hi : s.requests[i]? = some ⟨id, v, .mapError⟩) :
    Paired (s.answered i id Visitor.close) (done ++ [(⟨id, v, .mapError⟩, v)]) :=
  h.answered hi (fun _ => rfl) (fun _ _ hr => .inl hr) fun _ _ => .inr rfl

theorem Paired.handles (h : Paired s done) (H : Handles s e s' ds) : Paired s' (done ++ ds) := by
  have howned : ∀ {i : Nat} {id : UInt32} {v : Nat} {a : Answered},
      s.requests[i]? = some ⟨id, v, a⟩ → s.mqueue.lookup id = some v :=
    fun hi => h.owned _ (List.mem_of_getElem? hi)
  cases H
  case accept hi =>
    rw [howned hi]
    exact h.accept hi
  case mapError hi =>
    rw [howned hi]
    exact h.mapError hi
  all_goals rw [List.append_nil]
  case idle => exact h
  case visit => exact h.visit
  case mocked peer hmock => exact h.mocked hmock peer
  case mockFailed => exact h.goOn (by simp [Task.Fresh]) nofun
  case write ht => exact h.write ht
  case sent => exact h.goOn (by simp [Task.Fresh]) nofun
  case sendFailed => exact h.stop
  case recv ht => exact h.recv ht
  case copied => exact h.goOn (by simp [Task.Fresh]) nofun
  case timeout => exact h.goOn (by simp [Task.Fresh]) nofun
  case answer hi => exact h.answer hi _
  case lose => exact h.lose _
  case clientError => exact h.stop

theorem Paired.step {h : History} (hp : Paired h.server h.deliveries) (e : Event) :
    Paired (h.step e).server (h.step e).deliveries := by
  simp only [History.step, Penetrate.step]
  split
  · next hstop =>
    have hd : delivered e h.server = [] := by simp [delivered, hstop]
    rwa [hd, List.append_nil]
  · next hrun => exact hp.handles (Penetrate.handles (by simpa using hrun) e)

theorem paired_run (events : List Event) :
    Paired (run events).server (run events).deliveries :=
  after_invariant (I := fun h : History => Paired h.server h.deliveries) (fun _ e hp => hp.step e)
    paired_new

/-- In every run, the answer of a request goes to the channel of the visitor that it was sent for
and to no other one, no visitor is sent two, the data connection that a visitor receives is the
answer to its request, and a visitor is cancelled only by the error that answers its request. -/
theorem paired (events : List Event) :
    (∀ d ∈ (run events).deliveries, d.2 = d.1.visitor) ∧
    ((run events).deliveries.map (·.2)).Nodup ∧
    (∀ (v : Nat) (vis : Visitor) (conn : Request), (run events).server.visitors[v]? = some vis →
      vis.Holds conn →
      conn.visitor = v ∧ conn.answer = .map ∧ (conn, v) ∈ (run events).deliveries) ∧
    ∀ (v : Nat) (vis : Visitor), (run events).server.visitors[v]? = some vis → vis.closed = true →
      ∃ r, r.visitor = v ∧ r.answer = .mapError ∧ (r, v) ∈ (run events).deliveries := by
  have h := paired_run events
  refine ⟨h.own, ?_, ?_, ?_⟩
  · have hsame : (run events).deliveries.map (·.2) = (run events).deliveries.map (·.1.visitor) :=
      List.map_congr_left h.own
    rw [hsame]
    exact (List.nodup_append.1 h.nodup).1
  · intro v vis conn hvis hconn
    obtain ⟨hmem, hmap⟩ := h.holds v vis conn hvis hconn
    exact ⟨(h.own _ hmem).symm, hmap, hmem⟩
  · intro v vis hvis hc
    obtain ⟨r, hmem, herr⟩ := h.closed v vis hvis hc
    exact ⟨r, (h.own _ hmem).symm, herr, hmem⟩

end Penetrate
end Fuso
