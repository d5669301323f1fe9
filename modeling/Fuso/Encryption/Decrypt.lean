import Fuso.Async.Source
import Fuso.Encryption.Encryptor
import Fuso.Theory.Frame

/-!
# What an encryptor reads

An encryptor over a source is a source again (`Encryptor.source`): left of it is what it has cached
and what the messages left of its target decrypt to.
-/

namespace Fuso
open Turn

/-- What an encryptor writes, as frames: four bytes, and as many more as they say. -/
def messageFormat : Format UInt8 where
  head := 4
  body := fromLeBytes

/-- What the four bytes of a length announce. -/
theorem body_message (h : n < 2 ^ 32) (w : Bytes) :
    messageFormat.body ((toLeBytes n ++ w).take messageFormat.head) = n := by
  rw [List.take_left' (show (toLeBytes n).length = messageFormat.head from rfl)]
  exact fromLeBytes_toLeBytes h

theorem frame_message (h : c.length < 2 ^ 32) : messageFormat.Frame (toLeBytes c.length ++ c) := by
  refine ⟨by simp [messageFormat], ?_⟩
  rw [body_message h, List.length_append]
  rfl

/-- `f` is a message that decrypts to `m`. -/
def Cipher.Opens (C : Cipher G) (f m : Bytes) : Prop :=
  ∃ c, f = toLeBytes c.length ++ c ∧ c ≠ [] ∧ c.length < 2 ^ 32 ∧ C.decrypt c = .ok m ∧ m ≠ []

theorem Cipher.Opens.frame {C : Cipher G} (h : C.Opens f m) : messageFormat.Frame f := by
  obtain ⟨c, rfl, -, hlt, -⟩ := h
  exact frame_message hlt

theorem stream_messages {C : Cipher G} (h : List.Forall₂ C.Opens frames ms)
    (hpart : messageFormat.Open part) : messageFormat.Stream frames (frames.flatten ++ part) := by
  induction h with
  | nil => exact .of_open hpart
  | cons hf _ ih =>
    rw [List.flatten_cons, List.append_assoc]
    exact ih.cons hf.frame

namespace Encryptor
variable {G : Type} {C : Cipher G} {T : Type}

/-- The bytes of the message being read that have arrived. -/
def got (this : Encryptor C T) (rbuf : Bytes) : Bytes :=
  (if this.dinit then toLeBytes rbuf.length else []) ++ rbuf.take this.rpos

section
variable [AsyncRead T] (S : Source T)

/-- `b` is what the message being read and the ones behind it decrypt to. -/
structure Reading (b : Bytes) (this : Encryptor C T) (rbuf : Bytes) : Prop where
  size : if this.dinit then 0 < rbuf.length ∧ rbuf.length < 2 ^ 32 else rbuf.length = 4
  pos : this.rpos ≤ rbuf.length
  left : ∃ frames ms wire, List.Forall₂ C.Opens frames ms ∧ S.Left this.target wire ∧
    messageFormat.Stream frames (this.got rbuf ++ wire) ∧ b = ms.flatten

variable {S} {b rbuf : Bytes} {this : Encryptor C T}

theorem Reading.open_got (h : Reading S b this rbuf) (hlt : this.rpos < rbuf.length) :
    messageFormat.Open (this.got rbuf) := by
  refine Format.open_of_short fun hle => ?_
  have hsize := h.size
  cases hd : this.dinit with
  | false =>
    simp only [hd, Bool.false_eq_true, if_false] at hsize
    simp only [got, hd, messageFormat, Bool.false_eq_true, if_false, List.nil_append,
      List.length_take] at hle
    omega
  | true =>
    simp only [hd, if_true] at hsize
    simp only [got, hd, if_true]
    rw [body_message hsize.2]
    simp only [messageFormat, List.length_append, length_toLeBytes, List.length_take]
    omega

/-- Where the bytes of the target end in the middle of a message, no message was left. -/
theorem Reading.eq_nil (h : Reading S b this rbuf) (hlt : this.rpos < rbuf.length)
    (hms : List.Forall₂ C.Opens frames ms)
    (hs : messageFormat.Stream frames (this.got rbuf ++ [])) : ms = [] := by
  obtain rfl := hs.eq_nil (by simpa using h.open_got hlt)
  cases hms
  rfl

/-- Behind the four bytes of the length the ciphertext follows, and it is not empty. -/
theorem Reading.init (h : Reading S b this rbuf) (hpos : this.rpos = rbuf.length)
    (hd : this.dinit = false) :
    Reading S b ({ this with rpos := 0, dinit := true } : Encryptor C T)
      (.replicate (fromLeBytes rbuf) 0) := by
  have hlen : rbuf.length = 4 := by simpa [hd] using h.size
  obtain ⟨frames, ms, wire, hms, hw, hs, rfl⟩ := h.left
  have hgot : this.got rbuf = rbuf := by simp [got, hd, hpos]
  have hne : 0 < fromLeBytes rbuf := by
    refine Nat.pos_of_ne_zero fun h0 => ?_
    have hframe : messageFormat.Frame rbuf := by
      refine ⟨Nat.le_of_eq hlen.symm, ?_⟩
      rw [show messageFormat.head = 4 from rfl, List.take_of_length_le (Nat.le_of_eq hlen)]
      simp only [messageFormat, h0, hlen]
    rw [hgot] at hs
    obtain ⟨frames', rfl, -⟩ := hs.next hframe
    obtain _ | ⟨⟨c, hc, hne, -⟩, -⟩ := hms
    have := congrArg List.length hc
    simp only [hlen, List.length_append, length_toLeBytes] at this
    exact hne (List.length_eq_zero_iff.1 (by omega))
  have hlt := fromLeBytes_lt rbuf
  rw [hlen] at hlt
  refine ⟨by simp only [if_true, List.length_replicate]; omega, Nat.zero_le _, frames, ms, wire,
    hms, hw, ?_, rfl⟩
  rw [hgot] at hs
  simpa only [got, if_true, List.length_replicate, toLeBytes_fromLeBytes hlen, List.take_zero,
    List.append_nil] using hs

/-- A ciphertext that is complete is the one of the message that comes next. -/
theorem Reading.decrypt (h : Reading S b this rbuf) (hpos : this.rpos = rbuf.length)
    (hd : this.dinit = true) :
    ∃ m b', C.decrypt rbuf = .ok m ∧ m ≠ [] ∧ b = m ++ b' ∧
      Reading S b' ({ this with rpos := 0, dinit := false } : Encryptor C T) (.replicate 4 0) := by
  have hsize := h.size
  simp only [hd, if_true] at hsize
  obtain ⟨frames, ms, wire, hms, hw, hs, rfl⟩ := h.left
  have hgot : this.got rbuf = toLeBytes rbuf.length ++ rbuf := by simp [got, hd, hpos]
  rw [hgot] at hs
  obtain ⟨frames', rfl, hs'⟩ := hs.next (frame_message hsize.2)
  obtain _ | @⟨_, m, _, ms', ⟨c, hc, -, -, hdec, hne⟩, hms'⟩ := hms
  obtain rfl : rbuf = c := (List.append_inj hc rfl).2
  exact ⟨m, ms'.flatten, hdec, hne, rfl, by simp, Nat.zero_le _, frames', ms', wire, hms', hw,
    by simpa [got] using hs', rfl⟩

end

/-- What has arrived with `data` behind it. -/
theorem got_fill (this : Encryptor C T) {rbuf data : Bytes}
    (hle : this.rpos + data.length ≤ rbuf.length) (target : T) :
    got ({ this with target, rpos := this.rpos + data.length } : Encryptor C T)
      (overwrite rbuf this.rpos data) = this.got rbuf ++ data := by
  simp only [got, length_overwrite rbuf data hle, take_overwrite rbuf data hle, List.append_assoc]

section
variable [AsyncRead T] (S : Source T)

/-- What is left of an encryptor: its cache, and what its target still has for it. -/
def Left (this : Encryptor C T) (b : Bytes) : Prop :=
  ∃ b', b = this.cache.contents ++ b' ∧ Reading S b' this (this.rbuf.getD (.replicate 4 0))

/-- Inside of the loop. While `L` holds the target is live and has at most `n` answers. -/
structure Loop (b : Bytes) (L : Prop) (n : Nat) (s : Encryptor C T × Bytes) : Prop where
  reading : Reading S b s.1 s.2
  cache : s.1.cache.contents = []
  rbuf : s.1.rbuf = none
  live : L → S.live s.1.target ∧ S.answers s.1.target ≤ n

/-- The loop gives up. -/
def GaveUp (b : Bytes) (L : Prop) (n : Nat) (s : Encryptor C T × Bytes) : Prop :=
  Left S s.1 b ∧ (L → S.live s.1.target ∧ (b ≠ [] → S.answers s.1.target < n))

/-- The loop is ready: it delivers bytes from the front, or none is left. -/
def Delivers (b : Bytes) (cap : Nat) (L : Prop) (n : Nat) (s : Encryptor C T × Bytes)
    (r : ReadBuf × Result Nat) : Prop :=
  r.2 = .ok r.1.filled.length ∧ r.1.filled ≠ [] ∧ r.1.filled.length ≤ cap ∧
      (∃ rest, b = r.1.filled ++ rest ∧ Left S s.1 rest) ∧
      (L → S.live s.1.target ∧ S.answers s.1.target ≤ n) ∨
    b = [] ∧ (r.2 = .ok 0 ∨ ∃ e, r.2 = .error e)

/-- A bound for the rounds of the loop. -/
def rounds (s : Encryptor C T × Bytes) : Nat :=
  if s.1.dinit then s.2.length - s.1.rpos else 2 ^ 32 + 5 - s.1.rpos

variable {S} {b : Bytes} {cap n : Nat} {L : Prop} {this : Encryptor C T} {rbuf : Bytes}
  {s : Encryptor C T × Bytes}

/-- A round that reads. -/
theorem Loop.read (h : Loop S b L n (this, rbuf)) (hlt : this.rpos < rbuf.length) :
    ∃ target data,
      (AsyncRead.pollRead this.target (.new (rbuf.length - this.rpos)) = (target, data, .pending) ∧
        GaveUp S b L n (({ this with target, rbuf := some rbuf } : Encryptor C T), rbuf)) ∨
      (AsyncRead.pollRead this.target (.new (rbuf.length - this.rpos)) =
          (target, data, .ready (.ok data.filled.length)) ∧ data.filled.length ≠ 0 ∧
        this.rpos + data.filled.length ≤ rbuf.length ∧
        Loop S b L n
          (({ this with target, rpos := this.rpos + data.filled.length } : Encryptor C T),
            overwrite rbuf this.rpos data.filled)) ∨
      (b = [] ∧ (AsyncRead.pollRead this.target (.new (rbuf.length - this.rpos)) =
          (target, data, .ready (.ok 0)) ∨
        ∃ e, AsyncRead.pollRead this.target (.new (rbuf.length - this.rpos)) =
          (target, data, .ready (.error e)))) := by
  obtain ⟨hreading, hcache, hnone, hlive⟩ := h
  dsimp only at hreading hcache hnone hlive
  obtain ⟨frames, ms, wire, hms, hw, hs, rfl⟩ := hreading.left
  -- as long as a message is left the target has bytes
  have hwire : ms.flatten ≠ [] → wire ≠ [] := by
    rintro hne rfl
    exact hne (by rw [hreading.eq_nil hlt hms hs, List.flatten_nil])
  obtain ⟨target, data, ⟨hread, hw', hans⟩ | ⟨hread, hne, hcap, rest, rfl, hw', hans⟩ |
    ⟨rfl, hend⟩⟩ := S.read this.target wire (rbuf.length - this.rpos) hw (by omega)
  · refine ⟨target, data, .inl ⟨hread, ⟨ms.flatten, by simp [hcache], hreading.size, hreading.pos,
      frames, ms, wire, hms, hw', hs, rfl⟩, fun hL => ?_⟩⟩
    have := hlive hL
    exact ⟨(hans this.1).1, fun hb => Nat.lt_of_lt_of_le ((hans this.1).2 (hwire hb)) this.2⟩
  · have hle : this.rpos + data.filled.length ≤ rbuf.length := by omega
    refine ⟨target, data, .inr (.inl ⟨hread, mt List.length_eq_zero_iff.1 hne, hle, ⟨?_, ?_, frames,
      ms, rest, hms, hw', ?_, rfl⟩, hcache, hnone, fun hL => ?_⟩)⟩
    · simpa only [length_overwrite rbuf data.filled hle] using hreading.size
    · rwa [length_overwrite rbuf data.filled hle]
    · rwa [got_fill this hle, List.append_assoc]
    · have := hlive hL
      exact ⟨(hans this.1).1, Nat.le_trans (hans this.1).2 this.2⟩
  · exact ⟨target, data, .inr (.inr ⟨by rw [hreading.eq_nil hlt hms hs, List.flatten_nil], hend⟩)⟩

/-- The round that decrypts. -/
theorem Loop.decrypt (h : Loop S b L n (this, rbuf)) (hcap : 0 < cap)
    (hpos : this.rpos = rbuf.length) (hd : this.dinit = true) :
    ∃ s' r, readStep (.new cap) (this, rbuf) = .ready s' r ∧ Delivers S b cap L n s' r := by
  obtain ⟨hreading, hcache, hnone, hlive⟩ := h
  dsimp only at hreading hcache hnone hlive
  obtain ⟨m, b', hm, hne, rfl, hreading'⟩ := hreading.decrypt hpos hd
  let this' : Encryptor C T := { this with rpos := 0, dinit := false }
  have hrest : ∀ cache, Reading S b' ({ this' with cache } : Encryptor C T)
      (this'.rbuf.getD (.replicate 4 0)) := by
    intro cache
    rw [show this'.rbuf = none from hnone]
    exact ⟨hreading'.size, hreading'.pos, hreading'.left⟩
  by_cases hle : m.length ≤ cap
  · have hfill : ((ReadBuf.new cap).put m).filled = m := ReadBuf.filled_put hle
    refine ⟨(this', rbuf), ((ReadBuf.new cap).put m, .ok m.length), ?_, .inl ⟨?_, ?_, ?_, ⟨b', ?_,
      b', by simp [this', hcache], hrest _⟩, hlive⟩⟩
    · simp [readStep, hpos, hd, hm, hle, this']
    all_goals rw [hfill]
    exacts [hne, hle]
  · have hlen : (m.take cap).length = cap := by rw [List.length_take]; omega
    have hfill : ((ReadBuf.new cap).put (m.take cap)).filled = m.take cap :=
      ReadBuf.filled_put (Nat.le_of_eq hlen)
    refine ⟨({ this' with cache := this.cache.pushBack (m.drop cap) }, rbuf),
      ((ReadBuf.new cap).put (m.take cap), .ok cap), ?_, .inl ⟨?_, ?_, ?_, ⟨m.drop cap ++ b', ?_,
      b', by simp [hcache], hrest _⟩, hlive⟩⟩
    · simp [readStep, hpos, hd, hm, hle, this']
    all_goals rw [hfill]
    · rw [hlen]
    · exact List.length_pos_iff.1 (by omega)
    · exact Nat.le_of_eq hlen
    · rw [← List.append_assoc, List.take_append_drop]

/-- The round that reads. -/
theorem Loop.step (h : Loop S b L n (this, rbuf)) (hlt : this.rpos < rbuf.length) (buf : ReadBuf) :
    (∃ s', readStep buf (this, rbuf) = .again s' ∧ Loop S b L n s' ∧
      rounds s' < rounds (this, rbuf)) ∨
    (∃ s', readStep buf (this, rbuf) = .pending s' ∧ GaveUp S b L n s') ∨
    ∃ s' r, readStep buf (this, rbuf) = .ready s' (buf, r) ∧ b = [] ∧
      (r = .ok 0 ∨ ∃ e, r = .error e) := by
  have hne := Nat.ne_of_lt hlt
  have hin := Nat.lt_asymm hlt
  obtain ⟨target, data, ⟨hread, hgave⟩ | ⟨hread, hdata, hle, hloop⟩ | ⟨rfl, hread | ⟨e, hread⟩⟩⟩ :=
    h.read hlt
  · exact .inr (.inl ⟨_, by simp only [readStep, hne, false_and, if_false, if_neg hin, hread],
      hgave⟩)
  · refine .inl ⟨_, by simp only [readStep, hne, false_and, if_false, if_neg hin, hread, hdata],
      hloop, ?_⟩
    have hsize := h.reading.size
    simp only [rounds, length_overwrite rbuf data.filled hle]
    cases hd : this.dinit <;>
      simp only [hd, Bool.false_eq_true, if_false, if_true] at hsize ⊢ <;> omega
  · exact .inr (.inr ⟨_, .ok 0,
      by simp only [readStep, hne, false_and, if_false, if_neg hin, hread, if_true]; rfl, rfl,
      .inl rfl⟩)
  · exact .inr (.inr ⟨_, .error e,
      by simp only [readStep, hne, false_and, if_false, if_neg hin, hread]; rfl, rfl,
      .inr ⟨e, rfl⟩⟩)

/-- A round of the loop of `poll_decrypt_read`. -/
theorem readStep_cases (h : Loop S b L n s) (hcap : 0 < cap) :
    (∃ s', readStep (.new cap) s = .again s' ∧ Loop S b L n s' ∧ rounds s' < rounds s) ∨
    (∃ s', readStep (.new cap) s = .pending s' ∧ GaveUp S b L n s') ∨
    ∃ s' r, readStep (.new cap) s = .ready s' r ∧ Delivers S b cap L n s' r := by
  obtain ⟨this, rbuf⟩ := s
  have hpos := h.reading.pos
  dsimp only at hpos
  by_cases hfull : this.rpos = rbuf.length
  · cases hd : this.dinit with
    | true => exact .inr (.inr (h.decrypt hcap hfull hd))
    | false =>
      -- the loop goes on as if the length had been there from the start
      let this' : Encryptor C T := { this with rpos := 0, dinit := true }
      have hinit : Reading S b this' (.replicate (fromLeBytes rbuf) 0) := h.reading.init hfull hd
      have hsize : 0 < fromLeBytes rbuf ∧ fromLeBytes rbuf < 2 ^ 32 := by
        simpa [this'] using hinit.size
      have hloop : Loop S b L n (this', .replicate (fromLeBytes rbuf) 0) :=
        ⟨hinit, h.cache, h.rbuf, h.live⟩
      have hstep : readStep (.new cap) (this, rbuf) =
          readStep (.new cap) (this', .replicate (fromLeBytes rbuf) 0) := by
        simp [readStep, this', hfull, hd, hsize.1.ne]
      have hrounds : rounds (this', .replicate (fromLeBytes rbuf) 0) ≤ rounds (this, rbuf) := by
        have hlen : rbuf.length = 4 := by simpa [hd] using h.reading.size
        simp only [rounds, this', hd, if_true, Bool.false_eq_true, if_false, List.length_replicate]
        omega
      rw [hstep]
      rcases hloop.step (by simpa [this'] using hsize.1) (.new cap) with ⟨s', hs, hl, hlt⟩ | hs |
        ⟨s', r, hs, hb⟩
      · exact .inl ⟨s', hs, hl, by omega⟩
      · exact .inr (.inl hs)
      · exact .inr (.inr ⟨s', _, hs, .inr hb⟩)
  · rcases h.step (by omega) (.new cap) with hs | hs | ⟨s', r, hs, hb⟩
    · exact .inl hs
    · exact .inr (.inl hs)
    · exact .inr (.inr ⟨s', _, hs, .inr hb⟩)

/-- A `poll_decrypt_read` is over before its rounds run out. -/
theorem pollDecryptRead_cases (h : Reading S b this (this.rbuf.getD (.replicate 4 0)))
    (hcache : this.cache.contents = []) (hcap : 0 < cap) :
    (∃ s', this.pollDecryptRead (.new cap) = (s'.1, .new cap, .pending) ∧
      GaveUp S b (S.live this.target) (S.answers this.target) s') ∨
    ∃ s' buf r, this.pollDecryptRead (.new cap) = (s'.1, buf, .ready r) ∧
      Delivers S b cap (S.live this.target) (S.answers this.target) s' (buf, r) := by
  let start : Encryptor C T := { this with rbuf := none }
  have hloop : Loop S b (S.live this.target) (S.answers this.target)
      (start, this.rbuf.getD (.replicate 4 0)) :=
    ⟨⟨h.size, h.pos, h.left⟩, hcache, rfl, fun hl => ⟨hl, Nat.le_refl _⟩⟩
  have hrounds : rounds (start, this.rbuf.getD (.replicate 4 0)) < 2 ^ 32 + 8 := by
    have hsize := h.size
    simp only [rounds, start]
    cases hd : this.dinit <;>
      simp only [hd, Bool.false_eq_true, if_false, if_true] at hsize ⊢ <;> omega
  have hpoll : (∃ s', poll (readStep (.new cap)) (2 ^ 32 + 8)
        (start, this.rbuf.getD (.replicate 4 0)) = .pending s' ∧ _) ∨
      ∃ s' r, poll (readStep (.new cap)) (2 ^ 32 + 8)
        (start, this.rbuf.getD (.replicate 4 0)) = .ready s' r ∧ _ :=
    poll_post _ rounds (fun s hs => readStep_cases hs hcap) hloop hrounds
  rcases hpoll with ⟨s', hs, hgave⟩ | ⟨s', ⟨buf, r⟩, hs, hdel⟩
  · exact .inl ⟨s', by simp only [pollDecryptRead]; rw [hs], hgave⟩
  · exact .inr ⟨s', buf, r, by simp only [pollDecryptRead]; rw [hs], hdel⟩

/-- A source that decrypts what another one delivers. -/
def source (C : Cipher G) (S : Source T) : Source (Encryptor C T) where
  Left := Left S
  live this := S.live this.target
  answers this := S.answers this.target
  read := by
    rintro this b cap ⟨b', rfl, hreading⟩ hcap
    cases hc : this.cache.isEmpty with
    | false =>
      have hne : this.cache.contents ≠ [] := by
        rw [Ne, ← Buffer.isEmpty_iff, hc]
        exact Bool.false_ne_true
      let data := this.cache.contents.take cap
      have hdata : data.length ≤ cap := List.length_take_le _ _
      have hfill : ((ReadBuf.new cap).put data).filled = data := ReadBuf.filled_put hdata
      refine ⟨{ this with cache := (this.cache.readToBuffer cap).2 }, (ReadBuf.new cap).put data,
        .inr (.inl ⟨?_, ?_, ?_, this.cache.contents.drop cap ++ b', ?_, ?_,
          fun hl => ⟨hl, Nat.le_refl _⟩⟩)⟩
      · simp [AsyncRead.pollRead, pollRead, hc, hfill, data]
      all_goals try rw [hfill]
      · have := List.length_pos_iff.2 hne
        refine List.length_pos_iff.1 ?_
        simp only [data, List.length_take]
        omega
      · exact hdata
      · rw [← List.append_assoc, List.take_append_drop]
      · exact ⟨b', by simp, hreading.size, hreading.pos, hreading.left⟩
    | true =>
      have hnil : this.cache.contents = [] := Buffer.isEmpty_iff _ |>.1 hc
      have hpoll : AsyncRead.pollRead this (.new cap) = this.pollDecryptRead (.new cap) := by
        simp only [AsyncRead.pollRead, pollRead, hc, Bool.not_true, Bool.false_eq_true, if_false]
      rw [hnil, List.nil_append, hpoll]
      rcases pollDecryptRead_cases hreading hnil hcap with ⟨s', hs, hleft, hlive⟩ |
        ⟨s', buf, r, hs, ⟨hr, hne, hle, ⟨rest, hb, hleft⟩, hlive⟩ | ⟨hb, hr⟩⟩
      · exact ⟨s'.1, .new cap, .inl ⟨hs, hleft, hlive⟩⟩
      · dsimp only at hr
        exact ⟨s'.1, buf, .inr (.inl ⟨hr ▸ hs, hne, hle, rest, hb, hleft, hlive⟩)⟩
      · refine ⟨s'.1, buf, .inr (.inr ⟨hb, ?_⟩)⟩
        rcases hr with hr | ⟨e, hr⟩
        · exact .inl (hr ▸ hs)
        · exact .inr ⟨e, hr ▸ hs⟩

end
end Encryptor
end Fuso
