import Fuso.Async.Stream

/-!
# What a reader has left

A `Source` is a kind of reader that knows which bytes are left to be read: a poll takes some from
the front, or is not ready, and only when none is left it may read 0 bytes or fail. A future that
reads packets is correct over every source; `Duplex.source` is the one at the bottom.
-/

namespace Fuso

/-- A kind of reader. `Left r b` says that `b` is left of `r`; a reader is `live` while there are
answers enough for all it has left, and `answers` counts them. -/
structure Source (R : Type u) [AsyncRead R] where
  Left : R → Bytes → Prop
  live : R → Prop
  answers : R → Nat
  read : ∀ r b cap, Left r b → 0 < cap → ∃ r' buf,
    (pollRead r (.new cap) = (r', buf, .pending) ∧ Left r' b ∧
      (live r → live r' ∧ (b ≠ [] → answers r' < answers r))) ∨
    (pollRead r (.new cap) = (r', buf, .ready (.ok buf.filled.length)) ∧ buf.filled ≠ [] ∧
      buf.filled.length ≤ cap ∧ ∃ rest, b = buf.filled ++ rest ∧ Left r' rest ∧
      (live r → live r' ∧ answers r' ≤ answers r)) ∨
    (b = [] ∧ (pollRead r (.new cap) = (r', buf, .ready (.ok 0)) ∨
      ∃ e, pollRead r (.new cap) = (r', buf, .ready (.error e))))

namespace Duplex

/-- There are as many answers with bytes as there are bytes. -/
def Live (d : Duplex) : Prop := d.incoming.length ≤ (sizes d.reads).length

def source : Source Duplex where
  Left d b := d.incoming = b
  live := Live
  answers d := d.reads.length
  read := by
    rintro d _ cap rfl hcap
    have hb : (ReadBuf.new cap).remaining ≠ 0 := Nat.ne_of_gt hcap
    cases hr : d.reads with
    | nil =>
      refine ⟨d, .new cap, .inl ⟨pollRead_nil hr hb, rfl, fun hlive => ⟨hlive, fun hne => ?_⟩⟩⟩
      exact absurd (by simpa [Live, hr, sizes] using hlive) hne
    | cons a reads =>
      cases a with
      | pending =>
        refine ⟨{ d with reads }, .new cap, .inl ⟨pollRead_pending hr hb, rfl, fun hlive => ?_⟩⟩
        simpa [Live, hr, sizes] using hlive
      | upTo n =>
        obtain ⟨buf, hfill, hread⟩ := pollRead_upTo hr (Nat.ne_of_gt hcap)
        have hlen : (d.delivered n cap).length = min (min (n + 1) cap) d.incoming.length :=
          length_delivered
        refine ⟨d.behind reads (d.delivered n cap), buf, ?_⟩
        rw [hread, hfill]
        by_cases h0 : d.incoming = []
        · exact .inr (.inr ⟨h0, .inl (by rw [hlen, h0]; simp)⟩)
        · have hpos := List.length_pos_iff.2 h0
          refine .inr (.inl ⟨rfl, ?_, by omega, _, delivered_append.symm, rfl, fun hlive => ?_⟩)
          · exact List.length_pos_iff.1 (by omega)
          · simp only [Live, behind, hr, sizes, List.length_cons, List.length_drop] at *
            omega

end Duplex
end Fuso
