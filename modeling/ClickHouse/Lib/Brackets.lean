import Mathlib

/-! Brackets matched with a stack. Each symbol opens a bracket of some kind, closes one, or is
neither; a word is balanced when its brackets nest and each pair has one kind. The scan pushes the
symbols that open, pops the top on a closing symbol of its kind and fails on any other closing
symbol: it ends with an empty stack exactly on the balanced words. -/

namespace ClickHouse.Lib.Brackets

inductive Bracket (κ : Type) where
  | opening (k : κ)
  | closing (k : κ)
  | neither
  deriving DecidableEq, Repr

variable {α κ : Type} (b : α → Bracket κ)

inductive Balanced : List α → Prop
  | nil : Balanced []
  | plain {x : α} : b x = .neither → Balanced [x]
  | append {u v : List α} : Balanced u → Balanced v → Balanced (u ++ v)
  | nest {x y : α} {k : κ} {u : List α} : b x = .opening k → b y = .closing k → Balanced u →
      Balanced (x :: u ++ [y])

section Grammar

variable {b}

lemma Balanced.insert {w : List α} (h : Balanced b w) {m : List α} (hm : Balanced b m) :
    ∀ {p q : List α}, w = p ++ q → Balanced b (p ++ m ++ q) := by
  induction h with
  | nil =>
    intro p q hw
    obtain ⟨rfl, rfl⟩ := List.append_eq_nil_iff.mp hw.symm
    simpa using hm
  | @plain x hx =>
    intro p q hw
    rcases List.append_eq_singleton_iff.mp hw.symm with ⟨rfl, rfl⟩ | ⟨rfl, rfl⟩
    · exact .append (by simpa using hm) (.plain hx)
    · simpa using Balanced.append (.plain hx) hm
  | @append u v hu hv ihu ihv =>
    intro p q hw
    rcases List.append_eq_append_iff.mp hw.symm with ⟨a, rfl, rfl⟩ | ⟨c, rfl, rfl⟩
    · simpa only [List.append_assoc] using Balanced.append (ihu (p := p) (q := a) rfl) hv
    · simpa only [List.append_assoc] using Balanced.append hu (ihv (p := c) (q := q) rfl)
  | @nest x y k u hx hy hu ihu =>
    intro p q hw
    rcases List.cons_eq_append_iff.mp hw with ⟨rfl, rfl⟩ | ⟨p', rfl, hw'⟩
    · simpa using Balanced.append hm (.nest hx hy hu)
    rcases List.append_eq_append_iff.mp hw' with ⟨a, rfl, ha⟩ | ⟨c, rfl, rfl⟩
    · rcases List.append_eq_singleton_iff.mp ha.symm with ⟨rfl, rfl⟩ | ⟨rfl, rfl⟩
      · simpa using Balanced.nest hx hy (ihu (p := u) (q := []) (by simp))
      · simpa using Balanced.append (.nest hx hy hu) hm
    · simpa using Balanced.nest hx hy (ihu (p := p') (q := c) rfl)

end Grammar

variable [DecidableEq κ]

def closes (top x : α) : Bool :=
  match b top, b x with
  | .opening k, .closing k' => decide (k = k')
  | _, _ => false

/-- The stack holds the open symbols, the innermost first. -/
def scan : List α → List α → Option (List α)
  | stack, [] => some stack
  | stack, x :: w =>
    match b x with
    | .opening _ => scan (x :: stack) w
    | .closing _ =>
      match stack with
      | top :: stack' => if closes b top x then scan stack' w else none
      | [] => none
    | .neither => scan stack w

variable {b}

lemma closes_iff {top x : α} : closes b top x = true ↔ ∃ k, b top = .opening k ∧ b x = .closing k := by
  unfold closes
  split <;> simp_all [eq_comm]

lemma closes_of_eq {top x : α} {k : κ} (ht : b top = .opening k) (hx : b x = .closing k) :
    closes b top x = true :=
  closes_iff.mpr ⟨k, ht, hx⟩

lemma balanced_pair {top x : α} (h : closes b top x = true) : Balanced b [top, x] := by
  obtain ⟨k, ht, hx⟩ := closes_iff.mp h
  exact Balanced.nest (u := []) ht hx .nil

section Scan

variable {stack w : List α} {x : α} {k : κ}

@[simp] lemma scan_nil (stack : List α) : scan b stack [] = some stack := rfl

/-- One symbol of the scan, by cases on its kind; the lemmas below, and not the equations of `scan`,
are what the other proofs read the scan through. -/
lemma scan_cons (stack : List α) (x : α) (w : List α) :
    scan b stack (x :: w) =
      match b x with
      | .opening _ => scan b (x :: stack) w
      | .closing _ =>
        match stack with
        | top :: stack' => if closes b top x then scan b stack' w else none
        | [] => none
      | .neither => scan b stack w := rfl

lemma scan_opening (hx : b x = .opening k) : scan b stack (x :: w) = scan b (x :: stack) w := by
  rw [scan_cons, hx]

lemma scan_closing_nil (hx : b x = .closing k) : scan b [] (x :: w) = none := by
  rw [scan_cons, hx]

lemma scan_closing_cons (hx : b x = .closing k) (top : α) :
    scan b (top :: stack) (x :: w) = if closes b top x then scan b stack w else none := by
  rw [scan_cons, hx]

lemma scan_neither (hx : b x = .neither) : scan b stack (x :: w) = scan b stack w := by
  rw [scan_cons, hx]

end Scan

lemma scan_append_of_balanced {u : List α} (h : Balanced b u) (stack rest : List α) :
    scan b stack (u ++ rest) = scan b stack rest := by
  induction h generalizing stack rest with
  | nil => rfl
  | plain hx => rw [List.singleton_append, scan_neither hx]
  | append _ _ ihu ihv => rw [List.append_assoc, ihu, ihv]
  | @nest x y k u hx hy _ ih =>
    have hxy : closes b x y = true := closes_of_eq hx hy
    simp only [List.cons_append, List.append_assoc, List.nil_append]
    rw [scan_opening hx, ih, scan_closing_cons hy, if_pos hxy]

lemma balanced_of_scan : ∀ (w stack : List α), scan b stack w = some [] → Balanced b (stack.reverse ++ w)
  | [], stack, h => by
    obtain rfl : stack = [] := by simpa using h
    exact .nil
  | x :: w, stack, h => by
    cases hx : b x with
    | opening k =>
      -- the stack read backwards ends with the symbol pushed
      rw [scan_opening hx] at h
      simpa using balanced_of_scan w (x :: stack) h
    | closing k =>
      cases stack with
      | nil => rw [scan_closing_nil hx] at h; cases h
      | cons top stack' =>
        -- the matching top goes back in front of the symbol that closes it
        rw [scan_closing_cons hx] at h
        split_ifs at h with hc
        simpa using (balanced_of_scan w stack' h).insert (balanced_pair hc) (p := stack'.reverse) rfl
    | neither =>
      rw [scan_neither hx] at h
      simpa using (balanced_of_scan w stack h).insert (.plain hx) (p := stack.reverse) rfl

theorem scan_nil_eq_some_nil_iff (w : List α) : scan b [] w = some [] ↔ Balanced b w := by
  constructor
  · intro h
    simpa using balanced_of_scan w [] h
  · intro h
    simpa using scan_append_of_balanced h [] []

end ClickHouse.Lib.Brackets
