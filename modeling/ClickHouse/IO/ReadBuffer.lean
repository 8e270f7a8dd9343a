import Mathlib

/-! `IO/ReadBuffer.h`: a reader over a working buffer that `next` refills from its source. The bytes
from `position()` to the end of the working buffer are `pending`; `chunks` are what the following
calls of `nextImpl` put into the working buffer, from `nextimpl_working_buffer_offset` on, one list
a call, until the source ends. Any split of the same bytes into refills is a reader of them. -/

namespace ClickHouse.IO

structure ReadBuffer where
  pending : List UInt8
  chunks : List (List UInt8)

namespace ReadBuffer

/-- What is left to read: the rest of the working buffer, then every later refill. -/
def contents (rb : ReadBuffer) : List UInt8 := rb.pending ++ rb.chunks.flatten

def hasPendingData (rb : ReadBuffer) : Bool := !rb.pending.isEmpty

@[simp] lemma hasPendingData_iff (rb : ReadBuffer) : rb.hasPendingData = true ↔ rb.pending ≠ [] := by
  unfold hasPendingData
  simp

/-- `next` over the refills still to come: a refill with no data after its offset calls `next`
once more, and at the end of the source the working buffer is left empty. -/
def nextChunk : List (List UInt8) → Bool × ReadBuffer
  | [] => (false, ⟨[], []⟩)
  | [] :: chunks => nextChunk chunks
  | (byte :: bytes) :: chunks => (true, ⟨byte :: bytes, chunks⟩)

@[simp] lemma nextChunk_nil : nextChunk [] = (false, ⟨[], []⟩) := rfl

lemma nextChunk_nil_cons (chunks : List (List UInt8)) : nextChunk ([] :: chunks) = nextChunk chunks := rfl

@[simp] lemma nextChunk_cons_cons (byte : UInt8) (bytes : List UInt8) (chunks : List (List UInt8)) :
    nextChunk ((byte :: bytes) :: chunks) = (true, ⟨byte :: bytes, chunks⟩) := rfl

/-- `next`, called with no pending data: the bytes left in the working buffer are none. -/
def next (rb : ReadBuffer) : Bool × ReadBuffer := nextChunk rb.chunks

def eof (rb : ReadBuffer) : Bool × ReadBuffer :=
  if rb.hasPendingData then (false, rb)
  else
    let r := rb.next
    (!r.1, r.2)

lemma contents_nextChunk (chunks : List (List UInt8)) : (nextChunk chunks).2.contents = chunks.flatten := by
  induction chunks with
  | nil => rfl
  | cons c chunks ih =>
    cases c with
    | nil => rw [nextChunk_nil_cons, ih, List.flatten_cons, List.nil_append]
    | cons byte bytes => rfl

lemma nextChunk_spec (chunks : List (List UInt8)) :
    ((nextChunk chunks).1 = false ↔ chunks.flatten = []) ∧
      ((nextChunk chunks).1 = true → (nextChunk chunks).2.pending ≠ []) := by
  induction chunks with
  | nil => exact ⟨by simp, by simp⟩
  | cons c chunks ih =>
    cases c with
    | nil => rw [nextChunk_nil_cons, List.flatten_cons, List.nil_append]; exact ih
    | cons byte bytes => exact ⟨by simp, by simp⟩

@[simp] lemma contents_eof (rb : ReadBuffer) : rb.eof.2.contents = rb.contents := by
  unfold eof
  split_ifs with hpending
  · rfl
  · have hnil : rb.pending = [] := by simpa using hpending
    show (nextChunk rb.chunks).2.contents = _
    rw [contents_nextChunk]
    unfold contents
    rw [hnil, List.nil_append]

/-- `eof()` holds exactly when nothing is left to read; otherwise the working buffer has data. -/
lemma eof_spec (rb : ReadBuffer) :
    (rb.eof.1 = true ↔ rb.contents = []) ∧ (rb.eof.1 = false → rb.eof.2.pending ≠ []) := by
  unfold eof
  split_ifs with hpending
  · have hne : rb.pending ≠ [] := by simpa using hpending
    unfold contents
    exact ⟨by simp [hne], fun _ => hne⟩
  · have hnil : rb.pending = [] := by simpa using hpending
    obtain ⟨hfalse, htrue⟩ := nextChunk_spec rb.chunks
    refine ⟨?_, fun h => htrue (by simpa [next] using h)⟩
    unfold contents
    rw [hnil, List.nil_append, Bool.not_eq_true', ← hfalse]
    rfl

end ReadBuffer

end ClickHouse.IO
