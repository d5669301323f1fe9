import Fuso.Async.Stream

/-!
# The replay buffer

`Buffer`, a queue of chunks with the number of bytes in it. Its contents are the chunks one behind
the other; pushing adds at one end and `readToBuffer` takes from the front, whatever the chunks
(`contents_readToBuffer`).
-/

namespace Fuso

/-- The chunks, and the number of bytes in them. -/
structure Buffer (α : Type u) where
  len : Nat
  buf : List (List α)
  len_eq : len = buf.flatten.length

namespace Buffer

variable {α : Type u}

def contents (b : Buffer α) : List α := b.buf.flatten

def new : Buffer α := ⟨0, [], rfl⟩

def isEmpty (b : Buffer α) : Bool := b.len == 0

def pushAll (b : Buffer α) (data : List α) : Buffer α where
  len := b.len + data.length
  buf := b.buf ++ [data]
  len_eq := by simp [b.len_eq]

def pushBack (b : Buffer α) (data : List α) : Buffer α where
  len := b.len + data.length
  buf := b.buf ++ [data]
  len_eq := by simp [b.len_eq]

def pushFront (b : Buffer α) (data : List α) : Buffer α where
  len := b.len + data.length
  buf := data :: b.buf
  len_eq := by simp [b.len_eq, Nat.add_comm]

def clear (_ : Buffer α) : Buffer α := ⟨0, [], rfl⟩

/-- The loop of `read_to_buffer`: chunks are popped until `remaining` bytes are there, and what is
left of the last one is pushed back. -/
def popChunks : Nat → List (List α) → List α × List (List α)
  | 0, buf => ([], buf)
  | _ + 1, [] => ([], [])
  | n + 1, data :: buf =>
    if n + 1 ≤ data.length then
      (data.take (n + 1), if data.length ≠ n + 1 then data.drop (n + 1) :: buf else buf)
    else
      let (out, rest) := popChunks (n + 1 - data.length) buf
      (data ++ out, rest)

theorem popChunks_eq (n : Nat) (buf : List (List α)) :
    (popChunks n buf).1 = buf.flatten.take n ∧
      (popChunks n buf).2.flatten = buf.flatten.drop n := by
  induction buf generalizing n with
  | nil => cases n <;> simp [popChunks]
  | cons data buf ih =>
    cases n with
    | zero => simp [popChunks]
    | succ n =>
      unfold popChunks
      split
      · next hle =>
        refine ⟨by simp [List.take_append_of_le_length hle], ?_⟩
        split
        · simp [List.drop_append_of_le_length hle]
        · next heq =>
          rw [List.flatten_cons, List.drop_append_of_le_length hle,
            List.drop_eq_nil_of_le (by omega), List.nil_append]
      · next hlt =>
        obtain ⟨h₁, h₂⟩ := ih (n + 1 - data.length)
        have hle : data.length ≤ n + 1 := by omega
        simp only [h₁, h₂, List.flatten_cons, List.take_append, List.drop_append]
        rw [List.take_of_length_le hle, List.drop_eq_nil_of_le hle, List.nil_append]
        exact ⟨rfl, rfl⟩

def readToBuffer (b : Buffer α) (n : Nat) : List α × Buffer α :=
  let popped := popChunks n b.buf
  (popped.1, {
    len := if b.len ≠ 0 then b.len - popped.1.length else b.len
    buf := popped.2
    len_eq := by
      obtain ⟨h₁, h₂⟩ := popChunks_eq n b.buf
      have hlen := b.len_eq
      simp only [popped, h₁, h₂, List.length_take, List.length_drop]
      split <;> omega })

section
variable (b : Buffer α) (data : List α)

@[simp] theorem contents_new : (new : Buffer α).contents = [] := rfl

@[simp] theorem contents_pushAll : (b.pushAll data).contents = b.contents ++ data := by
  simp [contents, pushAll]

@[simp] theorem contents_pushBack : (b.pushBack data).contents = b.contents ++ data := by
  simp [contents, pushBack]

@[simp] theorem contents_pushFront : (b.pushFront data).contents = data ++ b.contents := by
  simp [contents, pushFront]

@[simp] theorem contents_clear : b.clear.contents = [] := rfl

@[simp] theorem readToBuffer_fst (n : Nat) : (b.readToBuffer n).1 = b.contents.take n :=
  (popChunks_eq n b.buf).1

@[simp] theorem contents_readToBuffer (n : Nat) :
    (b.readToBuffer n).2.contents = b.contents.drop n :=
  (popChunks_eq n b.buf).2

theorem len_contents : b.len = b.contents.length := b.len_eq

theorem isEmpty_iff : b.isEmpty ↔ b.contents = [] := by
  simp [isEmpty, len_contents]

end
end Buffer
end Fuso
