import ArrayTrace.Proofs.Accesses
import ArrayTrace.Proofs.Declarations
import ArrayTrace.Trace
import Mathlib.Data.List.SplitBy

/-!
# Tokens of written expressions

A text is cut into tokens, each as long as it can be. An expression is legible when its
parentheses are enough for its text to stand for it; then what stands next to each other in its
text are the tokens of its parts.

## Main definitions

* `lex` — the tokens of a text.
* `Expr.tokens` — the tokens of a written expression.
* `Expr.Legible` — whether the parentheses of an expression are enough.
-/

namespace ArrayTrace.C

/-! ## Tokens -/

/-- Tokens of expressions. -/
inductive Token
  /-- A name or a number. -/
  | word (text : String)
  | operator (text : String)
  | mark (c : Char)
deriving DecidableEq

/-- Whether a character can be part of an operator. -/
def isOperatorChar (c : Char) : Bool :=
  c ∈ ['+', '-', '*', '/', '%', '<', '>', '=', '!', '&', '|']

/-- Whether two characters next to each other belong to one token. -/
def joined (a b : Char) : Bool :=
  (isWordChar a && isWordChar b) || (isOperatorChar a && isOperatorChar b)

/-- The token that some characters form, unless they are blank. -/
def token? : List Char → Option Token
  | [] => none
  | c :: cs =>
    if isWordChar c then some (.word (String.ofList (c :: cs)))
    else if isOperatorChar c then some (.operator (String.ofList (c :: cs)))
    else if c = ' ' then none
    else some (.mark c)

/-- Tokens of a list of characters. -/
def lex (cs : List Char) : List Token := (cs.splitBy joined).filterMap token?

/-! ## Legible expressions -/

/-- The element type that is written in this way. -/
def elementType? (s : String) : Option DType := DType.all.find? fun d => d.cType = s

/-- Whether a word is a name of something other than a type. -/
def isName (s : String) : Bool := isIdentifier s && (elementType? s).isNone

namespace Expr

/-- Tokens of the written expression. -/
def tokens : Expr → List Token
  | var x => [.word x]
  | state x => [.word "state", .operator "->", .word x]
  | num n => [.word n.repr]
  | realZero => [.word "0", .mark '.', .word "0"]
  | paren e => .mark '(' :: e.tokens ++ [.mark ')']
  | index a i => a.tokens ++ .mark '[' :: i.tokens ++ [.mark ']']
  | call f x => .word f :: .mark '(' :: x.tokens ++ [.mark ')']
  | call₂ f x y => .word f :: .mark '(' :: x.tokens ++ .mark ',' :: y.tokens ++ [.mark ')']
  | bin op x y => x.tokens ++ .operator op.symbol :: y.tokens
  | neg e => .operator "-" :: e.tokens
  | not e => .operator "!" :: e.tokens
  | cond c x y => c.tokens ++ .mark '?' :: x.tokens ++ .mark ':' :: y.tokens
  | cast d e => .mark '(' :: .word d.cType :: .mark ')' :: e.tokens

/-- Whether an expression names an array. -/
def IsArray : Expr → Prop
  | var _ | state _ => True
  | _ => False

/-- Whether the parentheses of an expression are enough. A sign takes an operand in front of
which another sign could not run into it. -/
def Legible : Expr → Prop
  | var x | state x => isName x = true
  | num _ => True
  | realZero => False
  | paren e => e.Legible
  | index a i => a.IsArray ∧ a.Legible ∧ i.Legible
  | call f x => isName f = true ∧ x.Legible
  | call₂ f x y => isName f = true ∧ x.Legible ∧ y.Legible
  | bin op x y => (op.level ≤ x.level ∧ op.level < y.level) ∧ x.Legible ∧ y.Legible
  | neg e | not e => e.level = 8 ∧ e.Legible
  | cond c x y => 0 < c.level ∧ c.Legible ∧ x.Legible ∧ y.Legible
  | cast _ e => 7 ≤ e.level ∧ e.Legible

end Expr

/-! ## Cutting a text into tokens -/

theorem isOperatorChar_of_isWordChar {c : Char} (h : isWordChar c = true) :
    isOperatorChar c = false := by
  have hall : ['+', '-', '*', '/', '%', '<', '>', '=', '!', '&', '|'].all
      (fun c => !isWordChar c) = true := by decide
  by_contra hc
  rw [Bool.not_eq_false, isOperatorChar, decide_eq_true_eq] at hc
  have hnot := List.all_eq_true.1 hall c hc
  rw [h] at hnot
  cases hnot

theorem lex_append {xs ys : List Char}
    (h : ∀ x ∈ xs.getLast?, ∀ y ∈ ys.head?, joined x y = false) :
    lex (xs ++ ys) = lex xs ++ lex ys := by
  rw [lex, List.splitBy_append h, List.filterMap_append, lex, lex]

/-- Whether a character is a token of its own, or blank. -/
def isSolo (c : Char) : Bool := !isWordChar c && !isOperatorChar c

theorem lex_singleton (c : Char) : lex [c] = (token? [c]).toList := by
  rw [lex, List.splitBy_of_isChain (List.cons_ne_nil _ _) (List.isChain_singleton c)]
  rfl

theorem lex_append_cons {c : Char} (hc : isSolo c = true) (xs ys : List Char) :
    lex (xs ++ c :: ys) = lex xs ++ if c = ' ' then lex ys else .mark c :: lex ys := by
  obtain ⟨hword, hoperator⟩ : isWordChar c = false ∧ isOperatorChar c = false := by
    simpa [isSolo] using hc
  have hleft : ∀ x, joined x c = false := fun x => by simp [joined, hword, hoperator]
  have hright : ∀ y, joined c y = false := fun y => by simp [joined, hword, hoperator]
  have hcons : lex (c :: ys) = lex [c] ++ lex ys :=
    show lex ([c] ++ ys) = _ from lex_append fun x hx y _ => by cases hx; exact hright y
  rw [lex_append fun x _ y hy => by cases hy; exact hleft x, hcons, lex_singleton]
  by_cases hblank : c = ' '
  · subst hblank
    rfl
  · simp [token?, hword, hoperator, hblank]

theorem lex_cons {c : Char} (hc : isSolo c = true) (ys : List Char) :
    lex (c :: ys) = if c = ' ' then lex ys else .mark c :: lex ys :=
  lex_append_cons hc [] ys

/-- A run of characters that belong together is one token. -/
theorem lex_run {c : Char} {cs : List Char} {p : Char → Bool}
    (hp : ∀ x y, p x = true → p y = true → joined x y = true)
    (h : ∀ x ∈ c :: cs, p x = true) : lex (c :: cs) = (token? (c :: cs)).toList := by
  have hchain : (c :: cs).IsChain fun x y => joined x y = true := by
    refine List.Pairwise.isChain (List.pairwise_of_forall_mem_list fun x hx y hy => ?_)
    exact hp x y (h x hx) (h y hy)
  rw [lex, List.splitBy_of_isChain (List.cons_ne_nil _ _) hchain]
  rfl

theorem isDigit_eq_false {c : Char} (h : (c.isAlpha || c = '_') = true) : c.isDigit = false := by
  rcases Bool.or_eq_true_iff.1 h with h | h
  · delta Char.isAlpha Char.isUpper Char.isLower at h
    simp only [Char.isDigit, Bool.or_eq_true, Bool.and_eq_true, decide_eq_true_eq,
      Bool.and_eq_false_iff, decide_eq_false_iff_not, UInt32.le_iff_toNat_le, ge_iff_le] at h ⊢
    simp at h ⊢
    omega
  · rw [of_decide_eq_true h]
    rfl

/-- A name starts with a letter or an underscore. -/
theorem isWord_of_isName {s : String} (h : isName s = true) :
    isWord s = true ∧ ∃ c cs, s.toList = c :: cs ∧ isWordChar c = true ∧ c.isDigit = false := by
  have hidentifier : isIdentifier s = true := (Bool.and_eq_true_iff.1 h).1
  rw [isIdentifier] at hidentifier
  rw [isWord]
  split at hidentifier
  · cases hidentifier
  · rename_i c cs hlist
    obtain ⟨hc, hcs⟩ := Bool.and_eq_true_iff.1 hidentifier
    have hword : isWordChar c = true := by
      rw [isWordChar, Char.isAlphanum]
      rcases Bool.or_eq_true_iff.1 hc with hc | hc <;> simp [hc]
    rw [hlist, List.all_cons, hword]
    exact ⟨hcs, c, cs, rfl, hword, isDigit_eq_false hc⟩

theorem lex_word {s : String} (h : isWord s = true) (hne : s.toList ≠ []) :
    lex s.toList = [.word s] := by
  rw [isWord, List.all_eq_true] at h
  cases hs : s.toList with
  | nil => exact absurd hs hne
  | cons c cs =>
    rw [hs] at h
    rw [lex_run (p := isWordChar) (fun x y hx hy => by simp [joined, hx, hy]) h, token?,
      if_pos (h c List.mem_cons_self), ← hs, String.ofList_toList]
    rfl

theorem lex_name {s : String} (h : isName s = true) : lex s.toList = [.word s] := by
  obtain ⟨hword, c, cs, hs, -⟩ := isWord_of_isName h
  exact lex_word hword (by simp [hs])

theorem lex_repr (n : Nat) : lex n.repr.toList = [.word n.repr] := by
  rw [lex_word]
  · rw [isWord, Nat.toList_repr, List.all_eq_true]
    intro c hc
    have hdigit := Nat.isDigit_of_mem_toDigits (by omega) (by omega) hc
    simp [isWordChar, Char.isAlphanum, hdigit]
  · rw [Nat.toList_repr]
    exact Nat.toDigits_ne_nil

theorem lex_symbol (op : BinOp) : lex op.symbol.toList = [.operator op.symbol] := by
  cases op <;> decide

theorem lex_cType (d : DType) : lex d.cType.toList = [.word d.cType] := by
  cases d <;> decide

/-- Whether a text starts with something other than an operator. -/
def StartsPlain (cs : List Char) : Prop := ∃ c rest, cs = c :: rest ∧ isOperatorChar c = false

theorem StartsPlain.append {cs : List Char} (h : StartsPlain cs) (ds : List Char) :
    StartsPlain (cs ++ ds) := by
  obtain ⟨c, rest, rfl, hc⟩ := h
  exact ⟨c, rest ++ ds, rfl, hc⟩

theorem startsPlain_of_isName {s : String} (h : isName s = true) : StartsPlain s.toList := by
  obtain ⟨-, c, cs, hs, hword, -⟩ := isWord_of_isName h
  exact ⟨c, cs, hs, isOperatorChar_of_isWordChar hword⟩

/-- A sign is a token of its own in front of anything but another operator. -/
theorem lex_sign {c : Char} (hc : isOperatorChar c = true) {cs : List Char}
    (h : StartsPlain cs) : lex (c :: cs) = .operator (String.ofList [c]) :: lex cs := by
  obtain ⟨d, ds, rfl, hd⟩ := h
  have hword : isWordChar c = false := by
    by_contra hcon
    rw [isOperatorChar_of_isWordChar (Bool.not_eq_false _ ▸ hcon)] at hc
    cases hc
  have happend : lex ([c] ++ d :: ds) = lex [c] ++ lex (d :: ds) :=
    lex_append fun x hx y hy => by
      cases hx
      cases hy
      simp [joined, hword, hd]
  rw [List.singleton_append] at happend
  rw [happend, lex_singleton, token?, hword, if_neg Bool.false_ne_true, if_pos hc]
  rfl

namespace Expr

/-- What a sign is written in front of does not start with another operator. -/
theorem startsPlain_render {e : Expr} (he : e.Legible) (h : e.level = 8) :
    StartsPlain e.render.toList := by
  cases e with
  | var x => exact startsPlain_of_isName he
  | state x => exact ⟨'s', _, by simp [render]; rfl, by decide⟩
  | num n =>
    have hdigits : ∀ c ∈ Nat.toDigits 10 n, isWordChar c = true := fun c hc => by
      have hdigit := Nat.isDigit_of_mem_toDigits (by omega) (by omega) hc
      simp [isWordChar, Char.isAlphanum, hdigit]
    rw [render, Nat.toList_repr]
    cases hlist : Nat.toDigits 10 n with
    | nil => exact absurd hlist Nat.toDigits_ne_nil
    | cons c cs =>
      exact ⟨c, cs, rfl, isOperatorChar_of_isWordChar (hdigits c (hlist ▸ List.mem_cons_self))⟩
  | realZero => cases he
  | paren e => exact ⟨'(', _, by simp [render]; rfl, by decide⟩
  | index a i =>
    cases a with
    | var x =>
      simp only [render, String.toList_append, List.append_assoc]
      exact (startsPlain_of_isName he.2.1).append _
    | state x => exact ⟨'s', _, by simp [render]; rfl, by decide⟩
    | _ => cases he.1
  | call f x =>
    simp only [render, String.toList_append, List.append_assoc]
    exact (startsPlain_of_isName he.1).append _
  | call₂ f x y =>
    simp only [render, String.toList_append, List.append_assoc]
    exact (startsPlain_of_isName he.1).append _
  | bin op x y => cases op <;> cases h
  | _ => cases h

/-- The tokens of a written expression are those of its parts. -/
theorem lex_render {e : Expr} (h : e.Legible) : lex e.render.toList = e.tokens := by
  induction e with
  | var x => exact lex_name h
  | state x =>
    have hchars : (state x).render.toList = "state".toList ++ ("->".toList ++ x.toList) := by
      simp [render]
    obtain ⟨-, c, cs, hx, hword, -⟩ := isWord_of_isName h
    have harrow : lex ("->".toList ++ x.toList) = lex "->".toList ++ lex x.toList := by
      refine lex_append fun y hy z hz => ?_
      rw [hx] at hz
      obtain rfl : '>' = y := Option.some.inj hy
      obtain rfl : c = z := Option.some.inj hz
      rw [joined, isOperatorChar_of_isWordChar hword, Bool.and_false, Bool.or_false]
      rfl
    have hstate : lex ("state".toList ++ ("->".toList ++ x.toList)) =
        lex "state".toList ++ lex ("->".toList ++ x.toList) :=
      lex_append fun y hy z hz => by
        cases hy
        cases hz
        decide
    rw [hchars, hstate, harrow, lex_name h]
    rfl
  | num n => exact lex_repr n
  | realZero => cases h
  | paren e ih =>
    have hchars : (paren e).render.toList = '(' :: (e.render.toList ++ [')']) := by simp [render]
    rw [hchars, lex_cons rfl, lex_append_cons rfl, ih h]
    rfl
  | index a i iha ihi =>
    have hchars : (index a i).render.toList =
      a.render.toList ++ '[' :: (i.render.toList ++ [']']) := by simp [render]
    rw [hchars, lex_append_cons rfl, lex_append_cons rfl, iha h.2.1, ihi h.2.2]
    simp [tokens, lex]
  | call f x ih =>
    have hchars : (call f x).render.toList =
      f.toList ++ '(' :: (x.render.toList ++ [')']) := by simp [render]
    rw [hchars, lex_append_cons rfl, lex_append_cons rfl, ih h.2, lex_name h.1]
    rfl
  | call₂ f x y ihx ihy =>
    have hchars : (call₂ f x y).render.toList =
      f.toList ++ '(' :: (x.render.toList ++ ',' :: ' ' :: (y.render.toList ++ [')'])) := by
        simp [render]
    rw [hchars, lex_append_cons rfl, lex_append_cons rfl, lex_cons rfl, lex_append_cons rfl,
      ihx h.2.1, ihy h.2.2, lex_name h.1]
    simp [tokens, lex]
  | bin op x y ihx ihy =>
    have hchars : (bin op x y).render.toList =
      x.render.toList ++ ' ' :: (op.symbol.toList ++ ' ' :: y.render.toList) := by simp [render]
    rw [hchars, lex_append_cons rfl, lex_append_cons rfl, lex_symbol, ihx h.2.1, ihy h.2.2]
    rfl
  | neg e ih =>
    have hchars : (neg e).render.toList = '-' :: e.render.toList := by simp [render]
    rw [hchars, lex_sign rfl (startsPlain_render h.2 h.1), ih h.2]
    rfl
  | not e ih =>
    have hchars : (not e).render.toList = '!' :: e.render.toList := by simp [render]
    rw [hchars, lex_sign rfl (startsPlain_render h.2 h.1), ih h.2]
    rfl
  | cond c x y ihc ihx ihy =>
    have hchars : (cond c x y).render.toList =
        c.render.toList ++ ' ' :: '?' :: ' ' ::
          (x.render.toList ++ ' ' :: ':' :: ' ' :: y.render.toList) := by simp [render]
    rw [hchars, lex_append_cons rfl, lex_cons (c := '?') rfl, lex_cons (c := ' ') rfl,
      lex_append_cons rfl, lex_cons (c := ':') rfl, lex_cons (c := ' ') rfl,
      ihc h.2.1, ihx h.2.2.1, ihy h.2.2.2]
    simp [tokens]
  | cast d e ih =>
    have hchars : (cast d e).render.toList = '(' :: (d.cType.toList ++ ')' :: e.render.toList) := by
      simp [render]
    rw [hchars, lex_cons rfl, lex_append_cons rfl, lex_cType, ih h.2]
    rfl

end Expr

end ArrayTrace.C
