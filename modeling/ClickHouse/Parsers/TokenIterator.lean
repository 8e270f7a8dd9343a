import ClickHouse.Parsers.Lexer
import ClickHouse.Lib.Brackets

/-! `Parsers/TokenIterator.h` and `Parsers/TokenIterator.cpp`. `Tokens` reads the tokens of a query
with the lexer when they are asked for and keeps them, without whitespace and comments unless told
otherwise; `TokenIterator` walks them while they are valid, before the end of the stream and the
errors; `checkUnmatchedParentheses` walks them with a stack of brackets. The reference is what `n`
calls of the lexer give (`Lexer.run`): every read of `Tokens` returns the token of that stream at its
index, whatever was read before. -/

namespace ClickHouse.Parsers

open ClickHouse.Lib.Brackets

/-- `TokenIterator::isValid`: the types before `EndOfStream`; the errors come after it. -/
def TokenType.isValid (t : TokenType) : Bool := decide (t.ctorIdx < TokenType.endOfStream.ctorIdx)

structure Tokens where
  data : List Token
  maxPos : ℕ
  lexer : Lexer
  skipInsignificant : Bool

namespace Tokens

def init (input : List Char) (maxQuerySize : ℕ) (skipInsignificant : Bool) : Tokens :=
  ⟨[], 0, Lexer.init input maxQuerySize, skipInsignificant⟩

def keeps (skipInsignificant : Bool) (token : Token) : Bool := !skipInsignificant || token.type.isSignificant

/-- The round of the loop of `operator[]` that reads a token. -/
def pull (t : Tokens) : Tokens :=
  let token := t.lexer.nextToken.1
  { t with
    data := if keeps t.skipInsignificant token then t.data ++ [token] else t.data
    lexer := t.lexer.nextToken.2 }

/-- The loop of `operator[]`, with a bound on its rounds. -/
def getLoop (index : ℕ) : ℕ → Tokens → Option (Token × Tokens)
  | 0, _ => none
  | fuel + 1, t =>
    match t.data[index]? with
    | some token => some (token, { t with maxPos := max t.maxPos index })
    | none =>
      match t.data.getLast? with
      | some last =>
        if last.type = .endOfStream then some (last, { t with maxPos := t.data.length - 1 })
        else getLoop index fuel t.pull
      | none => getLoop index fuel t.pull

/-- `operator[]`: it keeps at most `index + 1` more tokens, and reads one more for each byte it skips. -/
def get (index : ℕ) (t : Tokens) : Option (Token × Tokens) :=
  t.getLoop index (index + t.lexer.rest.length + 2)

def getAll : List ℕ → Tokens → Option (List Token)
  | [], _ => some []
  | index :: rest, t =>
    match t.get index with
    | some (token, t') => (getAll rest t').map (token :: ·)
    | none => none

end Tokens

inductive Parenthesis
  | round
  | square
  deriving DecidableEq, Repr

/-- The brackets that `checkUnmatchedParentheses` matches: `(` with `)` and `[` with `]`. -/
def bracketOf (type : TokenType) : Bracket Parenthesis :=
  if type = .openingRoundBracket then .opening .round
  else if type = .openingSquareBracket then .opening .square
  else if type = .closingRoundBracket then .closing .round
  else if type = .closingSquareBracket then .closing .square
  else .neither

/-- The loop of `checkUnmatchedParentheses` from the token at `index`, with a bound on its rounds;
`stack` is the vector of the source read from its back. -/
def checkUnmatchedParenthesesLoop : ℕ → Tokens → ℕ → List Token → Option (List Token × Tokens)
  | 0, _, _, _ => none
  | fuel + 1, t, index, stack =>
    match t.get index with
    | none => none
    | some (token, t) =>
      if !token.type.isValid then some (stack.reverse, t)
      else if token.type = .openingRoundBracket ∨ token.type = .openingSquareBracket then
        checkUnmatchedParenthesesLoop fuel t (index + 1) (token :: stack)
      else if token.type = .closingRoundBracket ∨ token.type = .closingSquareBracket then
        match stack with
        | [] => some ([token], t)
        | top :: rest =>
          if (top.type = .openingRoundBracket ∧ token.type = .closingRoundBracket) ∨
              (top.type = .openingSquareBracket ∧ token.type = .closingSquareBracket) then
            checkUnmatchedParenthesesLoop fuel t (index + 1) rest
          else some ((token :: top :: rest).reverse, t)
      else checkUnmatchedParenthesesLoop fuel t (index + 1) stack

/-- `checkUnmatchedParentheses` from the iterator at `begin` over `t`: it reads at most one valid
token for each token kept and each byte left, and then one that is not valid. -/
def checkUnmatchedParentheses (t : Tokens) (begin : ℕ) : Option (List Token × Tokens) :=
  checkUnmatchedParenthesesLoop (t.data.length + t.lexer.rest.length + 1) t begin []

def Lexer.run : ℕ → Lexer → List Token × Lexer
  | 0, l => ([], l)
  | n + 1, l => ((Lexer.run n l.nextToken.2).1.cons l.nextToken.1, (Lexer.run n l.nextToken.2).2)

/-- The token that a read at `index` returns: the one at `index` of those the lexer gives from `l0`
and `Tokens` keeps, of which the first `index + 1 + l0.rest.length` calls give enough. -/
def Lexer.keptAt (skipInsignificant : Bool) (l0 : Lexer) (index : ℕ) : Token :=
  ((Lexer.run (index + l0.rest.length + 1) l0).1.filter (Tokens.keeps skipInsignificant)).getD index
    ⟨.endOfStream, l0.consumed, 0⟩

/-- The valid tokens of the stream from `index` on, at most `k` of them. -/
def Lexer.validFrom (skipInsignificant : Bool) (l0 : Lexer) : ℕ → ℕ → List Token
  | 0, _ => []
  | k + 1, index =>
    if (l0.keptAt skipInsignificant index).type.isValid then
      l0.keptAt skipInsignificant index :: Lexer.validFrom skipInsignificant l0 k (index + 1)
    else []

@[simp] lemma Lexer.validFrom_zero (skip : Bool) (l0 : Lexer) (index : ℕ) : l0.validFrom skip 0 index = [] := rfl

lemma Lexer.validFrom_succ (skip : Bool) (l0 : Lexer) (k index : ℕ) :
    l0.validFrom skip (k + 1) index =
      if (l0.keptAt skip index).type.isValid then l0.keptAt skip index :: l0.validFrom skip k (index + 1) else [] :=
  rfl

section Run

variable {l : Lexer}

namespace Lexer

@[simp] lemma run_zero (l : Lexer) : Lexer.run 0 l = ([], l) := rfl

/-- A run of `n + 1` calls: the first call, then `n` from where it left the lexer. Proofs read the
run through this and `run_zero`, not through the equations of `Lexer.run`. -/
lemma run_succ (n : ℕ) (l : Lexer) :
    Lexer.run (n + 1) l = ((Lexer.run n l.nextToken.2).1.cons l.nextToken.1, (Lexer.run n l.nextToken.2).2) := rfl

lemma run_add (m k : ℕ) (l : Lexer) :
    Lexer.run (m + k) l = ((Lexer.run m l).1 ++ (Lexer.run k (Lexer.run m l).2).1, (Lexer.run k (Lexer.run m l).2).2) := by
  induction m generalizing l with
  | zero => simp
  | succ m ih =>
    rw [Nat.add_right_comm]
    simp only [run_succ, ih, List.cons_append]

lemma run_succ' (n : ℕ) (l : Lexer) :
    Lexer.run (n + 1) l = ((Lexer.run n l).1 ++ [(Lexer.run n l).2.nextToken.1], (Lexer.run n l).2.nextToken.2) := by
  rw [run_add]
  rfl

@[simp] lemma length_run (n : ℕ) (l : Lexer) : (Lexer.run n l).1.length = n := by
  induction n generalizing l with
  | zero => rfl
  | succ n ih => simp [run_succ, ih]

lemma prefix_run {m n : ℕ} (h : m ≤ n) (l : Lexer) : (Lexer.run m l).1 <+: (Lexer.run n l).1 := by
  obtain ⟨k, rfl⟩ := Nat.exists_eq_add_of_le h
  rw [run_add]
  exact List.prefix_append _ _

lemma getElem?_run {n j : ℕ} (hj : j < n) (l : Lexer) :
    (Lexer.run n l).1[j]? = some (Lexer.run j l).2.nextToken.1 := by
  obtain ⟨k, rfl⟩ := Nat.exists_eq_add_of_lt hj
  rw [Nat.add_assoc, run_add, List.getElem?_append_right (by simp)]
  simp [run_succ]

/-- The token at the end of the bytes, which the lexer then gives at every call. -/
def endToken (l : Lexer) : Token :=
  ⟨if 0 < l.maxQuerySize ∧ l.maxQuerySize < l.consumed then .errorMaxQuerySizeExceeded else .endOfStream, l.consumed, 0⟩

lemma endToken_eq (l : Lexer) : l.endToken =
    ⟨if 0 < l.maxQuerySize ∧ l.maxQuerySize < l.consumed then .errorMaxQuerySizeExceeded else .endOfStream, l.consumed, 0⟩ :=
  rfl

lemma run_of_rest_nil (h : l.rest = []) (n : ℕ) :
    (Lexer.run n l).1 = List.replicate n l.endToken ∧ (Lexer.run n l).2.rest = [] ∧
      (Lexer.run n l).2.endToken = l.endToken := by
  induction n generalizing l with
  | zero => simp [h]
  | succ n ih =>
    obtain ⟨htok, hrest, hcons, hmax⟩ := Lexer.nextToken_of_rest_nil h
    obtain ⟨ih1, ih2, ih3⟩ := ih hrest
    have hend : l.nextToken.2.endToken = l.endToken := by
      rw [endToken_eq, endToken_eq, hcons, hmax]
    refine ⟨?_, ih2, ih3.trans hend⟩
    rw [run_succ, ih1, hend, List.replicate_succ, htok]
    rfl

lemma endToken_isSignificant (l : Lexer) : l.endToken.type.isSignificant = true := by
  rw [endToken_eq]
  split <;> rfl

lemma endToken_isValid (l : Lexer) : l.endToken.type.isValid = false := by
  rw [endToken_eq]
  split <;> rfl

lemma nextToken_of_nil (h : l.rest = []) : l.nextToken.1 = l.endToken :=
  (Lexer.nextToken_of_rest_nil h).1

lemma rest_length_nextToken_le (l : Lexer) : l.nextToken.2.rest.length ≤ l.rest.length := by
  rw [Lexer.nextToken_rest, List.length_drop]
  exact Nat.sub_le _ _

lemma rest_length_nextToken_lt {P : Token → Prop} (hend : ¬ P l.endToken) (h : P l.nextToken.1) :
    l.nextToken.2.rest.length < l.rest.length := by
  cases hrest : l.rest with
  | nil => exact absurd (nextToken_of_nil hrest ▸ h) hend
  | cons c cs => exact hrest ▸ Lexer.nextToken_advance hrest

lemma length_filter_run_add {P : Token → Bool} (hend : ∀ l : Lexer, P l.endToken = true) (n : ℕ) (l : Lexer) :
    n ≤ ((Lexer.run n l).1.filter P).length + l.rest.length := by
  induction n generalizing l with
  | zero => exact Nat.zero_le _
  | succ n ih =>
    have := ih l.nextToken.2
    have := rest_length_nextToken_le l
    rw [run_succ, List.filter_cons]
    split
    · simp only [List.length_cons]
      omega
    · rename_i hP
      have := rest_length_nextToken_lt (P := fun t => P t = false) (by simp [hend]) (by simpa using hP)
      omega

lemma length_filter_run_le {P : Token → Bool} (hend : ∀ l : Lexer, P l.endToken = false) (n : ℕ) (l : Lexer) :
    ((Lexer.run n l).1.filter P).length ≤ l.rest.length := by
  induction n generalizing l with
  | zero => exact Nat.zero_le _
  | succ n ih =>
    have := ih l.nextToken.2
    rw [run_succ, List.filter_cons]
    split
    · rename_i hP
      have := rest_length_nextToken_lt (P := fun t => P t = true) (by simp [hend]) hP
      simp only [List.length_cons]
      omega
    · have := rest_length_nextToken_le l
      omega

end Lexer

end Run

section Reads

lemma prefix_getElem?_eq {α : Type} {l₁ l₂ : List α} (h : l₁ <+: l₂) {i : ℕ} {a : α} (hi : l₁[i]? = some a) :
    l₂[i]? = some a := by
  obtain ⟨t, rfl⟩ := h
  rw [List.getElem?_append_left (List.getElem?_eq_some_iff.mp hi).1, hi]

namespace Tokens

variable {l0 : Lexer} {skip : Bool} {t : Tokens} {index : ℕ}

lemma keeps_endToken (skip : Bool) (l : Lexer) : keeps skip l.endToken = true := by
  simp [keeps, Lexer.endToken_isSignificant]

lemma prefix_kept (skip : Bool) {m n : ℕ} (h : m ≤ n) (l : Lexer) :
    (Lexer.run m l).1.filter (keeps skip) <+: (Lexer.run n l).1.filter (keeps skip) :=
  (Lexer.prefix_run h l).filter _

lemma index_lt_kept (skip : Bool) (l0 : Lexer) (index : ℕ) :
    index < ((Lexer.run (index + l0.rest.length + 1) l0).1.filter (keeps skip)).length := by
  have := Lexer.length_filter_run_add (keeps_endToken skip) (index + l0.rest.length + 1) l0
  omega

/-- The states that `Tokens` reaches from the lexer `l0`: it keeps what it keeps of the first `n`
tokens, and its lexer has read them. -/
structure Reached (l0 : Lexer) (skip : Bool) (t : Tokens) : Prop where
  skip_eq : t.skipInsignificant = skip
  run : ∃ n, t.data = (Lexer.run n l0).1.filter (keeps skip) ∧ t.lexer = (Lexer.run n l0).2

lemma reached_init (input : List Char) (maxQuerySize : ℕ) (skip : Bool) :
    (init input maxQuerySize skip).Reached (Lexer.init input maxQuerySize) skip :=
  ⟨rfl, 0, rfl, rfl⟩

lemma Reached.pull (h : t.Reached l0 skip) : t.pull.Reached l0 skip := by
  obtain ⟨hskip, n, hdata, hlexer⟩ := h
  refine ⟨hskip, n + 1, ?_, by simp [Tokens.pull, Lexer.run_succ', hlexer]⟩
  rw [Lexer.run_succ', List.filter_append, ← hdata, ← hlexer, List.filter_singleton]
  simp only [Tokens.pull, hskip]
  split <;> rename_i hk <;> simp [hk]

lemma Reached.setMaxPos (h : t.Reached l0 skip) (m : ℕ) : ({ t with maxPos := m } : Tokens).Reached l0 skip :=
  ⟨h.skip_eq, h.run⟩

lemma keptAt_eq_getD (skip : Bool) (l0 : Lexer) (index : ℕ) :
    l0.keptAt skip index = (((Lexer.run (index + l0.rest.length + 1) l0).1.filter (keeps skip))[index]?).getD
      ⟨.endOfStream, l0.consumed, 0⟩ :=
  List.getD_eq_getElem?_getD

lemma keptAt_of_getElem? (h : t.Reached l0 skip) {token : Token} (hi : t.data[index]? = some token) :
    l0.keptAt skip index = token := by
  obtain ⟨-, n, hdata, -⟩ := h
  have hlt := index_lt_kept skip l0 index
  rw [keptAt_eq_getD]
  rcases le_total n (index + l0.rest.length + 1) with hn | hn
  · rw [prefix_getElem?_eq (prefix_kept skip hn l0) (hdata ▸ hi)]
    rfl
  · obtain ⟨x, hx⟩ : ∃ x, ((Lexer.run (index + l0.rest.length + 1) l0).1.filter (keeps skip))[index]? = some x :=
      ⟨_, List.getElem?_eq_getElem hlt⟩
    have := prefix_getElem?_eq (prefix_kept skip hn l0) hx
    rw [← hdata, hi] at this
    rw [hx, Option.some.inj this]
    rfl

lemma Reached.end_of_getLast? (h : t.Reached l0 skip) {last : Token} (hlast : t.data.getLast? = some last)
    (hend : last.type = .endOfStream) :
    ∃ n, t.data = (Lexer.run n l0).1.filter (keeps skip) ∧ (Lexer.run n l0).2.rest = [] ∧
      (Lexer.run n l0).2.endToken = last := by
  obtain ⟨-, n, hdata, -⟩ := h
  have hmem : last ∈ (Lexer.run n l0).1 := List.mem_of_mem_filter (hdata ▸ List.mem_of_getLast? hlast)
  obtain ⟨j, hj⟩ := List.mem_iff_getElem?.mp hmem
  have hjn : j < n := by simpa using (List.getElem?_eq_some_iff.mp hj).1
  rw [Lexer.getElem?_run hjn, Option.some.injEq] at hj
  have hrest : (Lexer.run j l0).2.rest = [] := by
    cases hr : (Lexer.run j l0).2.rest with
    | nil => rfl
    | cons c cs => exact absurd (hj ▸ hend) (Lexer.nextToken_type_ne_endOfStream hr)
  obtain ⟨k, rfl⟩ := Nat.exists_eq_add_of_lt hjn
  obtain ⟨-, hrest', hend'⟩ := Lexer.run_of_rest_nil hrest (k + 1)
  rw [Lexer.nextToken_of_nil hrest] at hj
  refine ⟨j + k + 1, hdata, ?_, ?_⟩
  · rw [Nat.add_assoc, Lexer.run_add]
    exact hrest'
  · rw [Nat.add_assoc, Lexer.run_add, ← hj]
    exact hend'

lemma keptAt_of_getLast? (h : t.Reached l0 skip) (hi : t.data[index]? = none) {last : Token}
    (hlast : t.data.getLast? = some last) (hend : last.type = .endOfStream) : l0.keptAt skip index = last := by
  obtain ⟨n, hdata, hrest, hlastEq⟩ := h.end_of_getLast? hlast hend
  have hlt := index_lt_kept skip l0 index
  have hlen : t.data.length ≤ index := List.getElem?_eq_none_iff.mp hi
  have hn : n ≤ index + l0.rest.length + 1 := by
    by_contra hle
    have := (prefix_kept skip (Nat.le_of_not_le hle) l0).length_le
    rw [← hdata] at this
    omega
  -- past `n` calls the lexer repeats the end of the stream
  obtain ⟨k, hk⟩ := Nat.exists_eq_add_of_le hn
  have hrun : (Lexer.run (index + l0.rest.length + 1) l0).1.filter (keeps skip) = t.data ++ List.replicate k last := by
    rw [hk, Lexer.run_add, List.filter_append, ← hdata, (Lexer.run_of_rest_nil hrest k).1, hlastEq,
      List.filter_replicate_of_pos (hlastEq ▸ keeps_endToken skip _)]
  rw [keptAt_eq_getD, hrun]
  rw [hrun] at hlt
  rw [List.getElem?_append_right hlen, List.getElem?_replicate,
    if_pos (by simp at hlt; omega)]
  rfl

lemma pull_measure (index : ℕ) (hlen : t.data.length ≤ index) :
    index + 1 - t.pull.data.length + t.pull.lexer.rest.length < index + 1 - t.data.length + t.lexer.rest.length := by
  have hle := Lexer.rest_length_nextToken_le t.lexer
  simp only [pull]
  split
  · simp only [List.length_append, List.length_singleton]
    omega
  · rename_i hk
    have := Lexer.rest_length_nextToken_lt (l := t.lexer) (P := fun tok => keeps t.skipInsignificant tok = false)
      (by simp [keeps_endToken]) (by simpa using hk)
    omega

/-- The loop of `operator[]` returns the token of the stream at `index`: the one it kept there, or the
end of the stream it kept before, or it reads another token; each round keeps a token or skips a
byte. The induction is on the rounds left. -/
lemma getLoop_spec : ∀ (fuel : ℕ) (t : Tokens), t.Reached l0 skip →
    index + 1 - t.data.length + t.lexer.rest.length < fuel →
    ∃ t', t.getLoop index fuel = some (l0.keptAt skip index, t') ∧ t'.Reached l0 skip
  | 0, _, _, hf => absurd hf (Nat.not_lt_zero _)
  | fuel + 1, t, h, hf => by
    rw [getLoop]
    cases hi : t.data[index]? with
    | some token => exact ⟨_, by rw [keptAt_of_getElem? h hi], h.setMaxPos _⟩
    | none =>
      have hlen := List.getElem?_eq_none_iff.mp hi
      have hpull := getLoop_spec fuel t.pull h.pull (by have := pull_measure index hlen; omega)
      cases hlast : t.data.getLast? with
      | some last =>
        by_cases hend : last.type = .endOfStream
        · exact ⟨_, by simp only [if_pos hend, keptAt_of_getLast? h hi hlast hend], h.setMaxPos (t.data.length - 1)⟩
        · simpa only [hlast, if_neg hend] using hpull
      | none => simpa only [hlast] using hpull

lemma get_spec (h : t.Reached l0 skip) (index : ℕ) :
    ∃ t', t.get index = some (l0.keptAt skip index, t') ∧ t'.Reached l0 skip :=
  getLoop_spec _ t h (by omega)

end Tokens

end Reads

section Parentheses

variable {type : TokenType} {k : Parenthesis}

lemma bracketOf_eq_opening :
    bracketOf type = .opening k ↔ (k = .round ∧ type = .openingRoundBracket) ∨ (k = .square ∧ type = .openingSquareBracket) := by
  unfold bracketOf
  split_ifs <;> simp_all [eq_comm]

lemma bracketOf_eq_closing :
    bracketOf type = .closing k ↔ (k = .round ∧ type = .closingRoundBracket) ∨ (k = .square ∧ type = .closingSquareBracket) := by
  unfold bracketOf
  split_ifs <;> simp_all [eq_comm]

lemma bracketOf_eq_neither (ho : ¬(type = .openingRoundBracket ∨ type = .openingSquareBracket))
    (hc : ¬(type = .closingRoundBracket ∨ type = .closingSquareBracket)) : bracketOf type = .neither := by
  cases hb : bracketOf type with
  | opening k => rcases bracketOf_eq_opening.mp hb with ⟨-, h⟩ | ⟨-, h⟩ <;> simp_all
  | closing k => rcases bracketOf_eq_closing.mp hb with ⟨-, h⟩ | ⟨-, h⟩ <;> simp_all
  | neither => rfl

lemma closes_iff_source {top token : Token} :
    closes (fun t : Token => bracketOf t.type) top token = true ↔
      (top.type = .openingRoundBracket ∧ token.type = .closingRoundBracket) ∨
        (top.type = .openingSquareBracket ∧ token.type = .closingSquareBracket) := by
  rw [closes_iff]
  simp only [bracketOf_eq_opening, bracketOf_eq_closing]
  constructor
  · rintro ⟨k, ⟨rfl, h1⟩ | ⟨rfl, h1⟩, h2⟩ <;> simp_all
  · rintro (⟨h1, h2⟩ | ⟨h1, h2⟩)
    · exact ⟨.round, .inl ⟨rfl, h1⟩, .inl ⟨rfl, h2⟩⟩
    · exact ⟨.square, .inr ⟨rfl, h1⟩, .inr ⟨rfl, h2⟩⟩

end Parentheses

section Walk

namespace Tokens

variable {l0 : Lexer} {skip : Bool} {t : Tokens}

lemma keptAt_eq_getElem? (skip : Bool) (l0 : Lexer) (index : ℕ) {M : ℕ} (hM : index + l0.rest.length + 1 ≤ M) :
    ((Lexer.run M l0).1.filter (keeps skip))[index]? = some (l0.keptAt skip index) := by
  have hx := List.getElem?_eq_getElem (index_lt_kept skip l0 index)
  have := prefix_getElem?_eq (prefix_kept skip hM l0) hx
  rw [this, keptAt_eq_getD, hx]
  rfl

lemma Reached.count_valid (h : t.Reached l0 skip) (M : ℕ) :
    (((Lexer.run M l0).1.filter (keeps skip)).filter (fun token => token.type.isValid)).length ≤
      t.data.length + t.lexer.rest.length := by
  obtain ⟨-, n, hdata, hlexer⟩ := h
  rcases le_total M n with hM | hM
  · have hpre := (prefix_kept skip hM l0).length_le
    rw [← hdata] at hpre
    have := List.length_filter_le (fun token : Token => token.type.isValid) ((Lexer.run M l0).1.filter (keeps skip))
    omega
  · obtain ⟨k, rfl⟩ := Nat.exists_eq_add_of_le hM
    rw [Lexer.run_add, List.filter_append, ← hdata, ← hlexer, List.filter_append, List.length_append]
    have h1 := List.length_filter_le (fun token : Token => token.type.isValid) t.data
    have h2 := ((List.filter_sublist (p := keeps skip) (l := (Lexer.run k t.lexer).1)).filter
      (fun token : Token => token.type.isValid)).length_le
    have h3 := Lexer.length_filter_run_le (P := fun token : Token => token.type.isValid) Lexer.endToken_isValid k t.lexer
    omega

lemma Reached.exists_invalid (h : t.Reached l0 skip) (index : ℕ) :
    ∃ j ≤ t.data.length + t.lexer.rest.length, (l0.keptAt skip (index + j)).type.isValid = false := by
  set W := t.data.length + t.lexer.rest.length
  by_contra hall
  push Not at hall
  set S := (Lexer.run (index + W + l0.rest.length + 1) l0).1.filter (keeps skip)
  -- the window of `W + 1` tokens from `index` is a run of valid tokens of the stream
  have hlen : index + W < S.length := index_lt_kept skip l0 (index + W)
  have hwin : (List.range (W + 1)).map (fun j => l0.keptAt skip (index + j)) = (S.drop index).take (W + 1) := by
    apply List.ext_getElem (by simp only [List.length_map, List.length_range, List.length_take, List.length_drop]; omega)
    intro j h1 _
    simp only [List.length_map, List.length_range] at h1
    have hj := keptAt_eq_getElem? skip l0 (index + j) (M := index + W + l0.rest.length + 1) (by omega)
    simp only [List.getElem_map, List.getElem_range, List.getElem_take, List.getElem_drop]
    exact ((List.getElem?_eq_some_iff.mp hj).2).symm
  have hsub : List.Sublist ((List.range (W + 1)).map (fun j => l0.keptAt skip (index + j))) S :=
    hwin ▸ (List.take_sublist _ _).trans (List.drop_sublist _ _)
  have hvalid := (hsub.filter (fun token : Token => token.type.isValid)).length_le
  rw [List.filter_eq_self.mpr (by simpa using fun j _ => Bool.eq_true_of_not_eq_false (hall j (by omega)))] at hvalid
  have hcount : (S.filter (fun token : Token => token.type.isValid)).length ≤ W := h.count_valid _
  simp only [List.length_map, List.length_range] at hvalid
  omega

end Tokens

lemma Lexer.validFrom_eq {l0 : Lexer} {skip : Bool} : ∀ (j index k k' : ℕ),
    (l0.keptAt skip (index + j)).type.isValid = false → j < k → j < k' →
      l0.validFrom skip k index = l0.validFrom skip k' index
  | 0, index, k + 1, k' + 1, hj, _, _ => by
    simp only [Nat.add_zero] at hj
    simp [Lexer.validFrom_succ, hj]
  | j + 1, index, k + 1, k' + 1, hj, hk, hk' => by
    simp only [Lexer.validFrom_succ]
    rw [validFrom_eq j (index + 1) k k' (by rw [show index + 1 + j = index + (j + 1) by omega]; exact hj)
      (by omega) (by omega)]

end Walk

section Check

variable {t t' : Tokens} {index fuel : ℕ} {stack : List Token} {token : Token}

/-- One round of the loop on the token read at `index`; the lemmas below, and not the equations of
the loop, are what the other proofs read it through. -/
lemma checkUnmatchedParenthesesLoop_of_get (hget : t.get index = some (token, t')) :
    checkUnmatchedParenthesesLoop (fuel + 1) t index stack =
      if !token.type.isValid then some (stack.reverse, t')
      else if token.type = .openingRoundBracket ∨ token.type = .openingSquareBracket then
        checkUnmatchedParenthesesLoop fuel t' (index + 1) (token :: stack)
      else if token.type = .closingRoundBracket ∨ token.type = .closingSquareBracket then
        match stack with
        | [] => some ([token], t')
        | top :: rest =>
          if (top.type = .openingRoundBracket ∧ token.type = .closingRoundBracket) ∨
              (top.type = .openingSquareBracket ∧ token.type = .closingSquareBracket) then
            checkUnmatchedParenthesesLoop fuel t' (index + 1) rest
          else some ((token :: top :: rest).reverse, t')
      else checkUnmatchedParenthesesLoop fuel t' (index + 1) stack := by
  rw [checkUnmatchedParenthesesLoop, hget]

lemma checkUnmatchedParenthesesLoop_invalid (hget : t.get index = some (token, t')) (hv : token.type.isValid = false) :
    checkUnmatchedParenthesesLoop (fuel + 1) t index stack = some (stack.reverse, t') := by
  rw [checkUnmatchedParenthesesLoop_of_get hget]
  simp [hv]

section Valid

variable (hget : t.get index = some (token, t')) (hv : token.type.isValid = true)
include hget hv

lemma checkUnmatchedParenthesesLoop_opening
    (ho : token.type = .openingRoundBracket ∨ token.type = .openingSquareBracket) :
    checkUnmatchedParenthesesLoop (fuel + 1) t index stack =
      checkUnmatchedParenthesesLoop fuel t' (index + 1) (token :: stack) := by
  rw [checkUnmatchedParenthesesLoop_of_get hget]
  simp [hv, ho]

lemma checkUnmatchedParenthesesLoop_closing
    (ho : ¬(token.type = .openingRoundBracket ∨ token.type = .openingSquareBracket))
    (hc : token.type = .closingRoundBracket ∨ token.type = .closingSquareBracket) :
    checkUnmatchedParenthesesLoop (fuel + 1) t index stack =
      match stack with
      | [] => some ([token], t')
      | top :: rest =>
        if (top.type = .openingRoundBracket ∧ token.type = .closingRoundBracket) ∨
            (top.type = .openingSquareBracket ∧ token.type = .closingSquareBracket) then
          checkUnmatchedParenthesesLoop fuel t' (index + 1) rest
        else some ((token :: top :: rest).reverse, t') := by
  rw [checkUnmatchedParenthesesLoop_of_get hget]
  simp only [hv, Bool.not_true, Bool.false_eq_true, if_false, if_neg ho, if_pos hc]

lemma checkUnmatchedParenthesesLoop_neither
    (ho : ¬(token.type = .openingRoundBracket ∨ token.type = .openingSquareBracket))
    (hc : ¬(token.type = .closingRoundBracket ∨ token.type = .closingSquareBracket)) :
    checkUnmatchedParenthesesLoop (fuel + 1) t index stack = checkUnmatchedParenthesesLoop fuel t' (index + 1) stack := by
  rw [checkUnmatchedParenthesesLoop_of_get hget]
  simp only [hv, Bool.not_true, Bool.false_eq_true, if_false, if_neg ho, if_neg hc]

end Valid

end Check

section CheckSpec

variable {l0 : Lexer} {skip : Bool}

lemma exists_bracketOf_opening {type : TokenType} (h : type = .openingRoundBracket ∨ type = .openingSquareBracket) :
    ∃ k, bracketOf type = .opening k := by
  rcases h with h | h
  · exact ⟨.round, bracketOf_eq_opening.mpr (.inl ⟨rfl, h⟩)⟩
  · exact ⟨.square, bracketOf_eq_opening.mpr (.inr ⟨rfl, h⟩)⟩

lemma exists_bracketOf_closing {type : TokenType} (h : type = .closingRoundBracket ∨ type = .closingSquareBracket) :
    ∃ k, bracketOf type = .closing k := by
  rcases h with h | h
  · exact ⟨.round, bracketOf_eq_closing.mpr (.inl ⟨rfl, h⟩)⟩
  · exact ⟨.square, bracketOf_eq_closing.mpr (.inr ⟨rfl, h⟩)⟩

/-- The loop over the tokens from `index` against the scan of the valid ones, for a window of `k + 1`
tokens that ends at one that is not valid. The induction is on the window; each round of the loop
reads the token of the stream (`Tokens.get_spec`) and does what one step of the scan does. -/
lemma checkUnmatchedParenthesesLoop_spec (k : ℕ) : ∀ (fuel index : ℕ) (stack : List Token) (t : Tokens),
    t.Reached l0 skip → k < fuel → (∃ j ≤ k, (l0.keptAt skip (index + j)).type.isValid = false) →
    ∃ res t', checkUnmatchedParenthesesLoop fuel t index stack = some (res, t') ∧
      (res = [] ↔ scan (fun token : Token => bracketOf token.type) stack (l0.validFrom skip (k + 1) index) = some []) := by
  induction k with
  | zero =>
    rintro (_ | fuel) index stack t h hk ⟨j, hj, hinv⟩
    · omega
    obtain rfl : j = 0 := by omega
    rw [Nat.add_zero] at hinv
    obtain ⟨t', hget, -⟩ := Tokens.get_spec h index
    refine ⟨_, _, checkUnmatchedParenthesesLoop_invalid hget hinv, ?_⟩
    simp [Lexer.validFrom_succ, hinv]
  | succ k ih =>
    rintro (_ | fuel) index stack t h hk ⟨j, hj, hinv⟩
    · omega
    obtain ⟨t', hget, h'⟩ := Tokens.get_spec h index
    cases hv : (l0.keptAt skip index).type.isValid with
    | false =>
      refine ⟨_, _, checkUnmatchedParenthesesLoop_invalid hget hv, ?_⟩
      simp [Lexer.validFrom_succ, hv]
    | true =>
      -- a valid token: the window goes on from the next one
      have hj0 : j ≠ 0 := by
        rintro rfl
        simp_all
      have hnext : ∃ j ≤ k, (l0.keptAt skip (index + 1 + j)).type.isValid = false :=
        ⟨j - 1, by omega, by rwa [show index + 1 + (j - 1) = index + j by omega]⟩
      have hfrom : l0.validFrom skip (k + 1 + 1) index = l0.keptAt skip index :: l0.validFrom skip (k + 1) (index + 1) := by
        simp [Lexer.validFrom_succ, hv]
      rw [hfrom]
      by_cases ho : (l0.keptAt skip index).type = .openingRoundBracket ∨
          (l0.keptAt skip index).type = .openingSquareBracket
      · obtain ⟨_, hb⟩ := exists_bracketOf_opening ho
        rw [checkUnmatchedParenthesesLoop_opening hget hv ho, scan_opening (b := fun token : Token => bracketOf token.type) hb]
        exact ih fuel (index + 1) _ t' h' (by omega) hnext
      by_cases hc : (l0.keptAt skip index).type = .closingRoundBracket ∨
          (l0.keptAt skip index).type = .closingSquareBracket
      · obtain ⟨_, hb⟩ := exists_bracketOf_closing hc
        rw [checkUnmatchedParenthesesLoop_closing hget hv ho hc]
        cases stack with
        | nil => simp [scan_closing_nil (b := fun token : Token => bracketOf token.type) hb]
        | cons top rest =>
          -- the source's test of the two kinds is `closes` of the scan
          rw [scan_closing_cons (b := fun token : Token => bracketOf token.type) hb]
          simp only [closes_iff_source]
          split_ifs
          · exact ih fuel (index + 1) rest t' h' (by omega) hnext
          · simp
      · rw [checkUnmatchedParenthesesLoop_neither hget hv ho hc, scan_neither (b := fun token : Token => bracketOf token.type) (bracketOf_eq_neither ho hc)]
        exact ih fuel (index + 1) stack t' h' (by omega) hnext

end CheckSpec

section Results

variable {l0 : Lexer} {skip : Bool}

lemma Tokens.getAll_of_reached : ∀ (indices : List ℕ) (t : Tokens), t.Reached l0 skip →
    t.getAll indices = some (indices.map (l0.keptAt skip))
  | [], _, _ => rfl
  | index :: rest, t, h => by
    obtain ⟨t', hget, h'⟩ := Tokens.get_spec h index
    simp [Tokens.getAll, hget, Tokens.getAll_of_reached rest t' h']

theorem Tokens.getAll_init (input : List Char) (maxQuerySize : ℕ) (skipInsignificant : Bool) (indices : List ℕ) :
    (Tokens.init input maxQuerySize skipInsignificant).getAll indices =
      some (indices.map ((Lexer.init input maxQuerySize).keptAt skipInsignificant)) :=
  Tokens.getAll_of_reached indices _ (Tokens.reached_init input maxQuerySize skipInsignificant)

theorem checkUnmatchedParentheses_eq_nil_iff {t : Tokens} (h : t.Reached l0 skip) (begin : ℕ) :
    ∃ res t', checkUnmatchedParentheses t begin = some (res, t') ∧
      (res = [] ↔ Balanced (fun token : Token => bracketOf token.type) (l0.validFrom skip (l0.rest.length + 1) begin)) := by
  obtain ⟨j, hj, hinv⟩ := h.exists_invalid begin
  have h0 : (⟨[], 0, l0, skip⟩ : Tokens).Reached l0 skip := ⟨rfl, 0, rfl, rfl⟩
  obtain ⟨j0, hj0, hinv0⟩ := h0.exists_invalid begin
  simp only [List.length_nil, Nat.zero_add] at hj0
  obtain ⟨res, t', hrun, hres⟩ := checkUnmatchedParenthesesLoop_spec j (t.data.length + t.lexer.rest.length + 1) begin [] t h
    (by omega) ⟨j, le_rfl, hinv⟩
  refine ⟨res, t', hrun, ?_⟩
  rw [hres, scan_nil_eq_some_nil_iff]
  -- the windows up to either token that is not valid hold the same valid tokens
  rcases le_total j j0 with hle | hle
  · rw [Lexer.validFrom_eq j begin (j + 1) (l0.rest.length + 1) hinv (by omega) (by omega)]
  · rw [Lexer.validFrom_eq j0 begin (j + 1) (l0.rest.length + 1) hinv0 (by omega) (by omega)]

theorem checkUnmatchedParentheses_init_eq_nil_iff :
    ∃ res t', checkUnmatchedParentheses (Tokens.init "f(a[1)]".toList 0 true) 0 = some (res, t') ∧
      (res = [] ↔ Balanced (fun token : Token => bracketOf token.type)
        ((Lexer.init "f(a[1)]".toList 0).validFrom true ("f(a[1)]".toList.length + 1) 0)) :=
  checkUnmatchedParentheses_eq_nil_iff (Tokens.reached_init "f(a[1)]".toList 0 true) 0

end Results

section Tiling

variable {input : List Char} {l : Lexer}

/-- The lexer has read the bytes of `input` before `pos`. -/
structure Lexer.Reads (input : List Char) (l : Lexer) : Prop where
  consumed_le : l.consumed ≤ input.length
  rest_eq : l.rest = input.drop l.consumed

lemma Lexer.reads_init (input : List Char) (maxQuerySize : ℕ) : (Lexer.init input maxQuerySize).Reads input :=
  ⟨Nat.zero_le _, rfl⟩

lemma Lexer.advance_le (l : Lexer) :
    (nextTokenImpl l.prevSignificantTokenType (0 < l.consumed) l.rest).advance ≤ l.rest.length := by
  cases hrest : l.rest with
  | nil => rfl
  | cons c cs =>
    have hfit := nextTokenImpl_fits l.prevSignificantTokenType (0 < l.consumed) c cs
    have := hfit.advance_le
    have := hfit.size_le
    simp only [List.length_cons]
    omega

lemma Lexer.Reads.nextToken (h : l.Reads input) : l.nextToken.2.Reads input := by
  have ha := l.advance_le
  have hc := h.consumed_le
  have hlen : l.rest.length = input.length - l.consumed := by rw [h.rest_eq, List.length_drop]
  refine ⟨?_, ?_⟩
  · rw [Lexer.nextToken_consumed]
    omega
  · rw [Lexer.nextToken_rest, Lexer.nextToken_consumed, h.rest_eq, List.drop_drop, Nat.add_comm]

lemma Lexer.Reads.run (h : l.Reads input) (n : ℕ) : (Lexer.run n l).2.Reads input := by
  induction n generalizing l with
  | zero => exact h
  | succ n ih => exact ih h.nextToken

lemma Lexer.Reads.text_nextToken (h : l.Reads input) (hv : l.nextToken.1.type.isValid = true) :
    0 < l.nextToken.1.size ∧ l.nextToken.2.consumed = l.consumed + l.nextToken.1.size ∧
      Token.text input l.nextToken.1 = l.rest.take l.nextToken.1.size := by
  cases hrest : l.rest with
  | nil =>
    rw [Lexer.nextToken_of_nil hrest, Lexer.endToken_isValid] at hv
    cases hv
  | cons c cs =>
    have hfit := nextTokenImpl_fits l.prevSignificantTokenType (0 < l.consumed) c cs
    rw [← hrest] at hfit
    -- the tokens whose length differs from the move are errors
    have hwhole : (nextTokenImpl l.prevSignificantTokenType (0 < l.consumed) l.rest).advance =
        (nextTokenImpl l.prevSignificantTokenType (0 < l.consumed) l.rest).size := by
      rcases hfit.whole with hw | hw | hw
      · exact hw
      all_goals
        unfold Lexer.nextToken at hv
        dsimp only at hv
        rw [hw] at hv
        split at hv <;> cases hv
    refine ⟨?_, ?_, ?_⟩
    · rw [Lexer.nextToken_size, ← hwhole]
      exact hfit.one_le
    · rw [Lexer.nextToken_consumed, Lexer.nextToken_size, hwhole]
    · rw [Token.text, Lexer.nextToken_offset, ← h.rest_eq, hrest]

lemma length_takeWhile_le_filter {α : Type} (p : α → Bool) (l : List α) : (l.takeWhile p).length ≤ (l.filter p).length := by
  have hall : (l.takeWhile p).filter p = l.takeWhile p := List.filter_eq_self.mpr fun _ hx => List.mem_takeWhile_imp hx
  have := ((List.takeWhile_prefix p (l := l)).sublist.filter p).length_le
  rwa [hall] at this

/-- The valid tokens up to the first that is not valid are the bytes from `pos` up to it, each of them
one byte at least. The induction is on the calls of the lexer. -/
lemma Lexer.Reads.run_tiles (h : l.Reads input) : ∀ n,
    ((Lexer.run n l).1.takeWhile (fun token => token.type.isValid)).length < n →
    ∃ stop, (Lexer.run n l).1[((Lexer.run n l).1.takeWhile (fun token => token.type.isValid)).length]? = some stop ∧
      l.consumed ≤ stop.offset ∧
      ((Lexer.run n l).1.takeWhile (fun token => token.type.isValid)).flatMap (Token.text input) =
        l.rest.take (stop.offset - l.consumed) ∧
      ∀ token ∈ (Lexer.run n l).1.takeWhile (fun token => token.type.isValid), 0 < token.size := by
  intro n
  induction n generalizing l with
  | zero => simp
  | succ n ih =>
    intro hlt
    rw [Lexer.run_succ] at hlt ⊢
    rw [List.takeWhile_cons] at hlt ⊢
    cases hv : l.nextToken.1.type.isValid with
    | false => exact ⟨l.nextToken.1, by simp, by rw [Lexer.nextToken_offset], by simp [Lexer.nextToken_offset], by simp⟩
    | true =>
      simp only [hv, if_true, List.length_cons, Nat.add_lt_add_iff_right] at hlt ⊢
      obtain ⟨hsize, hcons, htext⟩ := h.text_nextToken hv
      obtain ⟨stop, hstop, hle, htexts, hpos⟩ := ih h.nextToken hlt
      have hrest : l.nextToken.2.rest = l.rest.drop l.nextToken.1.size := by
        rw [h.nextToken.rest_eq, h.rest_eq, List.drop_drop, hcons, Nat.add_comm]
      refine ⟨stop, by simpa using hstop, by omega, ?_, ?_⟩
      · rw [List.flatMap_cons, htext, htexts, hrest, hcons, ← List.take_add]
        congr 1
        omega
      · intro token htoken
        rcases List.mem_cons.mp htoken with rfl | htoken
        · exact hsize
        · exact hpos token htoken

lemma Lexer.tokens_takeWhile_tile (input : List Char) (maxQuerySize : ℕ) :
    let tokens := (Lexer.run (input.length + 1) (Lexer.init input maxQuerySize)).1
    let valid := tokens.takeWhile (fun token => token.type.isValid)
    ∃ stop, tokens[valid.length]? = some stop ∧ valid.flatMap (Token.text input) = input.take stop.offset ∧
      (∀ token ∈ valid, 0 < token.size) ∧ (stop.type = .endOfStream → stop.offset = input.length) := by
  intro tokens valid
  have hvalid : valid = tokens.takeWhile (fun token => token.type.isValid) := rfl
  have htokens : tokens = (Lexer.run (input.length + 1) (Lexer.init input maxQuerySize)).1 := rfl
  clear_value valid tokens
  subst hvalid htokens
  have hreads := Lexer.reads_init input maxQuerySize
  -- every valid token takes a byte, so a token that is not valid comes within the bytes and one more
  have hlt := length_takeWhile_le_filter (fun token : Token => token.type.isValid)
    (Lexer.run (input.length + 1) (Lexer.init input maxQuerySize)).1
  have := Lexer.length_filter_run_le (P := fun token : Token => token.type.isValid) Lexer.endToken_isValid
    (input.length + 1) (Lexer.init input maxQuerySize)
  replace hlt : _ < input.length + 1 := Nat.lt_succ_of_le (hlt.trans this)
  obtain ⟨stop, hstop, -, htext, hpos⟩ := hreads.run_tiles _ hlt
  refine ⟨stop, hstop, htext, hpos, fun hend => ?_⟩
  -- the end of the stream comes only where no byte is left
  rw [Lexer.getElem?_run hlt, Option.some.injEq] at hstop
  set m := ((Lexer.run (input.length + 1) (Lexer.init input maxQuerySize)).1.takeWhile
    (fun token => token.type.isValid)).length
  have hr := hreads.run m
  have hnil : (Lexer.run m (Lexer.init input maxQuerySize)).2.rest = [] := by
    cases hrest : (Lexer.run m (Lexer.init input maxQuerySize)).2.rest with
    | nil => rfl
    | cons c cs => exact absurd (hstop ▸ hend) (Lexer.nextToken_type_ne_endOfStream hrest)
  have := hr.consumed_le
  rw [hr.rest_eq, List.drop_eq_nil_iff] at hnil
  rw [← hstop, Lexer.nextToken_offset]
  omega

theorem lexer_tokens_tile (input : List Char) (maxQuerySize : ℕ) :
    ∃ valid stop rest, (Lexer.run (input.length + 1) (Lexer.init input maxQuerySize)).1 = valid ++ stop :: rest ∧
      (∀ token ∈ valid, token.type.isValid ∧ 0 < token.size) ∧ stop.type.isValid = false ∧
      valid.flatMap (Token.text input) = input.take stop.offset ∧
      (stop.type = .endOfStream → stop.offset = input.length) := by
  obtain ⟨stop, hstop, htext, hpos, hend⟩ := Lexer.tokens_takeWhile_tile input maxQuerySize
  set tokens := (Lexer.run (input.length + 1) (Lexer.init input maxQuerySize)).1
  have hsplit := List.takeWhile_append_dropWhile (p := fun token : Token => token.type.isValid) (l := tokens)
  -- the token after the valid ones heads what they leave
  have h0 : (tokens.takeWhile (fun token => token.type.isValid) ++ tokens.dropWhile (fun token => token.type.isValid))[
      (tokens.takeWhile (fun token => token.type.isValid)).length]? = (tokens.dropWhile (fun token => token.type.isValid))[0]? := by
    rw [List.getElem?_append_right le_rfl, Nat.sub_self]
  rw [hsplit] at h0
  rw [h0] at hstop
  obtain ⟨rest, hdrop⟩ : ∃ rest, tokens.dropWhile (fun token => token.type.isValid) = stop :: rest := by
    cases hd : tokens.dropWhile (fun token => token.type.isValid) with
    | nil => simp [hd] at hstop
    | cons x rest => exact ⟨rest, by simpa [hd] using hstop⟩
  refine ⟨_, stop, rest, by rw [← hdrop, hsplit], fun token h => ⟨List.mem_takeWhile_imp (p := fun token : Token => token.type.isValid) h, hpos token h⟩, ?_, htext, hend⟩
  simpa [hdrop] using List.head_dropWhile_not (fun token : Token => token.type.isValid) (l := tokens) (by simp [hdrop])

end Tiling

end ClickHouse.Parsers
