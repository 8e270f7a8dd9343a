import ClickHouse.Lib.Except
import Mathlib.Data.List.Basic

/-! An encoder and a decoder that each carry a state, such as a predictor, and advance it by the
item just written or just read. If one item written from a state reads back, from the same state,
as that item with the same next state, then any number of items do: the decoder's state follows
the encoder's in lockstep. Items are also grouped by two, as codecs that write them in pairs do. -/

namespace ClickHouse.Lib.Lockstep

variable {S X B E : Type}

/-- The encoder's loop: each item is written from the current state, which it then advances. -/
def emitAll (enc : S → X → List B × S) : S → List X → List B × S
  | s, [] => ([], s)
  | s, x :: xs => ((enc s x).1 ++ (emitAll enc (enc s x).2 xs).1, (emitAll enc (enc s x).2 xs).2)

/-- The decoder's loop: `n` items read one after another, each from the bytes the one before left;
it returns the items, the number of bytes read and the state. -/
def parseN (dec : S → List B → Except E (X × ℕ × S)) : ℕ → S → List B → Except E (List X × ℕ × S)
  | 0, s, _ => .ok ([], 0, s)
  | n + 1, s, bytes => do
    let (x, k, s') ← dec s bytes
    let (xs, m, s'') ← parseN dec n s' (bytes.drop k)
    pure (x :: xs, k + m, s'')

@[simp] lemma emitAll_nil (enc : S → X → List B × S) (s : S) : emitAll enc s [] = ([], s) := rfl

lemma emitAll_cons (enc : S → X → List B × S) (s : S) (x : X) (xs : List X) :
    emitAll enc s (x :: xs) =
      ((enc s x).1 ++ (emitAll enc (enc s x).2 xs).1, (emitAll enc (enc s x).2 xs).2) := rfl

lemma emitAll_append (enc : S → X → List B × S) (s : S) (xs ys : List X) :
    emitAll enc s (xs ++ ys) =
      ((emitAll enc s xs).1 ++ (emitAll enc (emitAll enc s xs).2 ys).1,
        (emitAll enc (emitAll enc s xs).2 ys).2) := by
  induction xs generalizing s with
  | nil => rfl
  | cons x xs ih => rw [List.cons_append, emitAll_cons, ih, emitAll_cons, List.append_assoc]

section Replay

variable (enc : S → X → List B × S) (dec : S → List B → Except E (X × ℕ × S))

/-- One item read back from what was written for it, whatever follows. -/
def ReadsBack : Prop :=
  ∀ s x rest, dec s ((enc s x).1 ++ rest) = .ok (x, (enc s x).1.length, (enc s x).2)

theorem parseN_emitAll (hstep : ReadsBack enc dec) (s : S) (xs : List X) (rest : List B) :
    parseN dec xs.length s ((emitAll enc s xs).1 ++ rest) =
      .ok (xs, (emitAll enc s xs).1.length, (emitAll enc s xs).2) := by
  induction xs generalizing s with
  | nil => rfl
  | cons x xs ih =>
    -- the first item reads back and leaves exactly the encoding of the others
    rw [List.length_cons, emitAll_cons, parseN, List.append_assoc, hstep, ok_bind]
    dsimp only
    rw [List.drop_left' rfl, ih, ok_bind, List.length_append]
    rfl

end Replay

section Pairs

variable {α : Type}

/-- The items of a list taken two at a time; an odd last item is left out. -/
def pairsOf : List α → List (α × α)
  | [] => []
  | [_] => []
  | a :: b :: rest => (a, b) :: pairsOf rest

def unpair : List (α × α) → List α
  | [] => []
  | (a, b) :: rest => a :: b :: unpair rest

@[simp] lemma pairsOf_nil : pairsOf ([] : List α) = [] := rfl

@[simp] lemma pairsOf_singleton (a : α) : pairsOf [a] = [] := rfl

lemma pairsOf_cons_cons (a b : α) (rest : List α) : pairsOf (a :: b :: rest) = (a, b) :: pairsOf rest := rfl

@[simp] lemma unpair_nil : unpair ([] : List (α × α)) = [] := rfl

lemma unpair_cons (a b : α) (rest : List (α × α)) : unpair ((a, b) :: rest) = a :: b :: unpair rest := rfl

@[simp] lemma length_unpair (ps : List (α × α)) : (unpair ps).length = 2 * ps.length := by
  induction ps with
  | nil => rfl
  | cons p ps ih =>
    rw [unpair_cons, List.length_cons, List.length_cons, ih, List.length_cons]
    omega

lemma unpair_append (ps qs : List (α × α)) : unpair (ps ++ qs) = unpair ps ++ unpair qs := by
  induction ps with
  | nil => rfl
  | cons p ps ih => rw [List.cons_append, unpair_cons, unpair_cons, ih, List.cons_append, List.cons_append]

lemma unpair_pairsOf {l : List α} (h : l.length % 2 = 0) : unpair (pairsOf l) = l := by
  induction l using pairsOf.induct with
  | case1 => rfl
  | case2 a => simp at h
  | case3 a b rest ih =>
    rw [pairsOf_cons_cons, unpair_cons, ih (by simp at h; omega)]

lemma length_pairsOf : ∀ l : List α, (pairsOf l).length = l.length / 2
  | [] => by simp
  | [_] => by simp
  | a :: b :: rest => by
    rw [pairsOf_cons_cons, List.length_cons, length_pairsOf rest, List.length_cons, List.length_cons]
    omega

end Pairs

end ClickHouse.Lib.Lockstep
