import ArrayTrace.Proofs.Tokens

/-!
# Reading written expressions

The text of an expression is read back as C reads it: its tokens are taken apart by how tightly
operators bind. What is read from the text of a legible expression is the expression.

## Main definitions

* `readExpr` — the expression at the start of a list of tokens, by precedence climbing.
* `read?` — the expression that a text stands for.
-/

namespace ArrayTrace.C

/-! ## Expressions -/

/-- Every binary operator. -/
def BinOp.all : List BinOp :=
  [add, sub, mul, div, rem, lt, gt, le, ge, eq, ne, and, or]

/-- The binary operator that is written in this way. -/
def binary? (s : String) : Option BinOp := BinOp.all.find? fun op => op.symbol = s

/-- The number that a word stands for. A leading zero would make it octal. -/
def number? (s : String) : Option Nat :=
  if s.toList.all Char.isDigit && (s.toList.head? ≠ some '0' || s = "0") then
    some (Nat.ofDigitChars 10 s.toList 0)
  else none

/-- The expression that a word is. -/
def operand? (s : String) : Option Expr :=
  if isName s then some (.var s) else (number? s).map .num

/-- What comes after a mark. -/
def after? (c : Char) : List Token → Option (List Token)
  | .mark d :: ts => if d = c then some ts else none
  | _ => none

/-- A type in parentheses, and what comes after it. -/
def castType? : List Token → Option (DType × List Token)
  | .mark '(' :: .word s :: .mark ')' :: ts => (elementType? s).map fun d => (d, ts)
  | _ => none

mutual

/-- An expression whose operators bind at least as tightly as a level says, and what comes
after it. Each call takes one unit of `fuel`. -/
def readExpr : Nat → Nat → List Token → Option (Expr × List Token)
  | 0, _, _ => none
  | fuel + 1, level, ts => do
    let (x, ts) ← readPrefix fuel ts
    readRest fuel level x ts

/-- The operators and operands that come after a first operand. -/
def readRest : Nat → Nat → Expr → List Token → Option (Expr × List Token)
  | 0, _, _, _ => none
  | fuel + 1, level, x, ts =>
    match ts with
    | .operator s :: rest => do
      let op ← binary? s
      if op.level < level then return (x, ts)
      let (y, ts) ← readExpr fuel (op.level + 1) rest
      readRest fuel level (.bin op x y) ts
    | .mark '?' :: rest => do
      if 0 < level then return (x, ts)
      let (y, ts) ← readExpr fuel 0 rest
      let (z, ts) ← readExpr fuel 0 (← after? ':' ts)
      return (.cond x y z, ts)
    | _ => some (x, ts)

/-- An operand with the signs and casts in front of it. -/
def readPrefix : Nat → List Token → Option (Expr × List Token)
  | 0, _ => none
  | fuel + 1, ts =>
    match ts with
    | .operator s :: rest => do
      let (x, ts) ← readPrefix fuel rest
      if s = "-" then return (.neg x, ts)
      if s = "!" then return (.not x, ts)
      none
    | _ =>
      match castType? ts with
      | some (d, rest) => do
        let (x, ts) ← readPrefix fuel rest
        return (.cast d x, ts)
      | none => do
        let (x, ts) ← readAtom fuel ts
        readPostfix fuel x ts

/-- The indices after an array. -/
def readPostfix : Nat → Expr → List Token → Option (Expr × List Token)
  | 0, _, _ => none
  | fuel + 1, x, ts =>
    match ts with
    | .mark '[' :: rest => do
      let (i, ts) ← readExpr fuel 0 rest
      readPostfix fuel (.index x i) (← after? ']' ts)
    | _ => some (x, ts)

/-- A name, a number, a call, a member of the state or an expression in parentheses. -/
def readAtom : Nat → List Token → Option (Expr × List Token)
  | 0, _ => none
  | fuel + 1, ts =>
    match ts with
    | .mark '(' :: rest => do
      let (x, ts) ← readExpr fuel 0 rest
      return (.paren x, ← after? ')' ts)
    | .word f :: .mark '(' :: rest => do
      if !isName f then none
      let (x, ts) ← readExpr fuel 0 rest
      match ts with
      | .mark ',' :: rest => do
        let (y, ts) ← readExpr fuel 0 rest
        return (.call₂ f x y, ← after? ')' ts)
      | _ => return (.call f x, ← after? ')' ts)
    | .word s :: .operator "->" :: .word x :: rest =>
      if s = "state" ∧ isName x then some (.state x, rest) else none
    | .word s :: rest => (operand? s).map fun x => (x, rest)
    | _ => none

end

/-- The expression that a text stands for. -/
def read? (text : String) : Option Expr :=
  let ts := lex text.toList
  match readExpr (4 * ts.length) 0 ts with
  | some (e, []) => some e
  | _ => none

/-! ## Words -/

@[simp] theorem binary?_symbol (op : BinOp) : binary? op.symbol = some op := by
  cases op <;> decide

@[simp] theorem elementType?_cType (d : DType) : elementType? d.cType = some d := by
  cases d <;> decide

theorem elementType?_of_isName {s : String} (h : isName s = true) : elementType? s = none :=
  Option.isNone_iff_eq_none.1 (Bool.and_eq_true_iff.1 h).2

theorem operand?_of_isName {s : String} (h : isName s = true) : operand? s = some (.var s) := by
  rw [operand?, if_pos h]

/-- A written number has no leading zero. -/
theorem head?_toDigits_ne {n : Nat} (h : n ≠ 0) : (Nat.toDigits 10 n).head? ≠ some '0' := by
  induction n using Nat.strongRecOn with
  | ind n ih =>
    by_cases hlt : n < 10
    · simpa [Nat.toDigits_of_lt_base hlt] using h
    · have hrest := ih (n / 10) (by omega) (by omega)
      rw [Nat.toDigits_of_base_le (by omega) (by omega),
        List.head?_append_of_ne_nil _ Nat.toDigits_ne_nil]
      exact hrest

theorem operand?_repr (n : Nat) : operand? n.repr = some (.num n) := by
  have hdigits : (Nat.toDigits 10 n).all Char.isDigit = true := List.all_eq_true.2 fun c hc =>
    Nat.isDigit_of_mem_toDigits (by omega) (by omega) hc
  have hname : isName n.repr = false := by
    by_contra hcon
    obtain ⟨-, c, cs, hs, -, hc⟩ := isWord_of_isName (Bool.not_eq_false _ ▸ hcon)
    rw [Nat.toList_repr] at hs
    rw [hs, List.all_cons, hc] at hdigits
    cases hdigits
  have hzero : ((Nat.toDigits 10 n).head? ≠ some '0' || n.repr = "0") = true := by
    by_cases hn : n = 0
    · subst hn
      rfl
    · simp [head?_toDigits_ne hn]
  rw [operand?, hname, if_neg Bool.false_ne_true, number?, Nat.toList_repr, hdigits, hzero]
  simp [Nat.ofDigitChars_ten_toDigits]

theorem elementType?_repr (n : Nat) : elementType? n.repr = none := by
  have hheads : ∀ d : DType, d.cType.toList.head?.all Char.isDigit = false := by
    intro d
    cases d <;> decide
  rw [elementType?, List.find?_eq_none]
  rintro d - hd
  have hhead := hheads d
  rw [of_decide_eq_true hd, Nat.toList_repr] at hhead
  cases hlist : Nat.toDigits 10 n with
  | nil => exact Nat.toDigits_ne_nil hlist
  | cons c cs =>
    have hc := Nat.isDigit_of_mem_toDigits (by omega) (by omega)
      (hlist ▸ List.mem_cons_self : c ∈ Nat.toDigits 10 n)
    simp [hlist, hc] at hhead

theorem castType?_word {s : String} (h : elementType? s = none) (rest : List Token) :
    castType? (.mark '(' :: .word s :: rest) = none := by
  cases rest with
  | nil => rfl
  | cons t rest =>
    cases t with
    | mark c =>
      by_cases hc : c = ')'
      · simp [castType?, hc, h]
      · simp [castType?, hc]
    | _ => rfl

/-- An expression in parentheses is no cast. -/
theorem castType?_open {e : Expr} (he : e.Legible) (rest : List Token) :
    castType? (.mark '(' :: (e.tokens ++ rest)) = none := by
  induction e generalizing rest with
  | var x => exact castType?_word (elementType?_of_isName he) rest
  | num n => exact castType?_word (elementType?_repr n) rest
  | state x => rfl
  | realZero => cases he
  | index a i iha ihi =>
    rw [Expr.tokens, List.append_assoc, List.append_assoc]
    exact iha he.2.1 _
  | call f x ih =>
    exact castType?_word (elementType?_of_isName he.1) _
  | call₂ f x y =>
    exact castType?_word (elementType?_of_isName he.1) _
  | bin op x y ihx ihy =>
    rw [Expr.tokens, List.append_assoc]
    exact ihx he.2.1 _
  | cond c x y ihc =>
    rw [Expr.tokens, List.append_assoc, List.append_assoc]
    exact ihc he.2.1 _
  | _ => rfl

/-! ## Reading the tokens of an expression -/

/-- Whether an expression of a level ends in front of some tokens. -/
def Stops (level : Nat) : List Token → Prop
  | [] => True
  | .word _ :: _ => False
  | .operator s :: _ => ∃ op, binary? s = some op ∧ op.level ≤ level
  | .mark c :: _ => c ≠ '(' ∧ c ≠ '[' ∧ (c = '?' → 0 < level)

theorem Stops.mono {l l' : Nat} {ts : List Token} (h : Stops l ts) (hle : l ≤ l') :
    Stops l' ts := by
  cases ts with
  | nil => trivial
  | cons t ts =>
    cases t with
    | word s => exact h
    | operator s =>
      obtain ⟨op, hop, hlevel⟩ := h
      exact ⟨op, hop, Nat.le_trans hlevel hle⟩
    | mark c => exact ⟨h.1, h.2.1, fun hc => Nat.lt_of_lt_of_le (h.2.2 hc) hle⟩

/-- Nothing is taken from tokens that only looser operators go on with. -/
theorem readRest_of_stops {l level fuel : Nat} {x : Expr} {ts : List Token} (h : Stops l ts)
    (hlt : l < level) : readRest (fuel + 1) level x ts = some (x, ts) := by
  cases ts with
  | nil => rfl
  | cons t ts =>
    cases t with
    | word s => cases h
    | operator s =>
      obtain ⟨op, hop, hlevel⟩ := h
      simp [readRest, hop, Nat.lt_of_le_of_lt hlevel hlt]
    | mark c =>
      by_cases hc : c = '?'
      · subst hc
        simp [readRest, Nat.lt_of_le_of_lt (Nat.zero_le l) hlt]
      · simp [readRest, hc]

theorem readRest_of_stops_zero {level fuel : Nat} {x : Expr} {ts : List Token}
    (h : Stops 0 ts) : readRest (fuel + 1) level x ts = some (x, ts) := by
  cases ts with
  | nil => rfl
  | cons t ts =>
    cases t with
    | word s => cases h
    | operator s =>
      obtain ⟨op, -, hlevel⟩ := h
      cases op <;> cases hlevel
    | mark c =>
      have hc : c ≠ '?' := fun hc => Nat.lt_irrefl 0 (h.2.2 hc)
      simp [readRest, hc]

theorem readPostfix_of_stops {l fuel : Nat} {x : Expr} {ts : List Token} (h : Stops l ts) :
    readPostfix (fuel + 1) x ts = some (x, ts) := by
  cases ts with
  | nil => rfl
  | cons t ts =>
    cases t with
    | mark c => simp [readPostfix, h.2.1]
    | _ => rfl

theorem BinOp.level_lt (op : BinOp) : op.level < 7 := by
  cases op <;> simp [BinOp.level]

namespace Expr

theorem level_le (e : Expr) : e.level ≤ 8 := by
  cases e with
  | bin op => exact Nat.le_of_lt (Nat.lt_succ_of_lt op.level_lt)
  | _ => simp [level]

/-- Number of operators that the first operand of an expression is followed by. -/
def spine : Expr → Nat
  | bin _ x _ => x.spine + 1
  | _ => 0

theorem spine_lt_length (e : Expr) : e.spine < e.tokens.length := by
  induction e with
  | bin op x y ihx ihy =>
    rw [spine, tokens, List.length_append, List.length_cons]
    omega
  | index | cond =>
    simp only [spine, tokens, List.length_append, List.length_cons]
    omega
  | _ => simp [spine, tokens]

/-- What is read from the tokens of an expression, where operators may follow. -/
def Reads (e : Expr) : Prop :=
  ∀ fuel level rest, 4 * e.tokens.length ≤ fuel → level ≤ e.level → Stops e.level rest →
    readExpr fuel level (e.tokens ++ rest) = readRest (fuel - e.spine - 1) level e rest

/-- What is read from the tokens of an operand. -/
def ReadsPrefix (e : Expr) : Prop :=
  ∀ fuel rest, 4 * e.tokens.length ≤ fuel + 1 → Stops 8 rest →
    readPrefix fuel (e.tokens ++ rest) = some (e, rest)

variable {e x y i : Expr} {op : BinOp} {f : String} {rest : List Token} {fuel : Nat}

theorem ReadsPrefix.reads (h : e.ReadsPrefix) (hspine : e.spine = 0) : e.Reads := by
  intro fuel level rest hfuel _ hstops
  have hlen := e.spine_lt_length
  obtain ⟨fuel, rfl⟩ : ∃ n, fuel = n + 1 := ⟨fuel - 1, by omega⟩
  rw [readExpr, h fuel rest hfuel (hstops.mono e.level_le), hspine]
  rfl

/-- An expression in front of tokens that cannot go on with it. -/
theorem Reads.complete (h : e.Reads) (hstops : Stops 0 rest)
    (hfuel : 4 * e.tokens.length ≤ fuel) :
    readExpr fuel 0 (e.tokens ++ rest) = some (e, rest) := by
  have hlen := e.spine_lt_length
  obtain ⟨n, hn⟩ : ∃ n, fuel - e.spine - 1 = n + 1 := ⟨fuel - e.spine - 2, by omega⟩
  rw [h fuel 0 _ hfuel (Nat.zero_le _) (hstops.mono (Nat.zero_le _)), hn,
    readRest_of_stops_zero hstops]

/-- An expression in front of the mark that closes it. -/
theorem Reads.closed (h : e.Reads) (c : Char) (rest : List Token)
    (hc : c ∈ [')', ']', ',', ':']) (hfuel : 4 * e.tokens.length ≤ fuel) :
    readExpr fuel 0 (e.tokens ++ .mark c :: rest) = some (e, .mark c :: rest) := by
  refine h.complete ?_ hfuel
  simp only [List.mem_cons, List.not_mem_nil, or_false] at hc
  rcases hc with rfl | rfl | rfl | rfl <;> exact ⟨by decide, by decide, by decide⟩

/-- Whether a word is followed by neither arguments nor a member. -/
def Ends (rest : List Token) : Prop :=
  ∀ t ∈ rest.head?, t ≠ .mark '(' ∧ t ≠ .operator "->"

theorem ends_of_stops {l : Nat} (h : Stops l rest) : Ends rest := by
  intro t ht
  cases rest with
  | nil => cases ht
  | cons t rest =>
    cases ht
    cases t with
    | word s => cases h
    | operator s =>
      refine ⟨by simp, fun hs => ?_⟩
      obtain ⟨op, hop, -⟩ := h
      have harrow : binary? "->" = none := by decide
      rw [Token.operator.inj hs, harrow] at hop
      cases hop
    | mark c => exact ⟨fun hc => h.1 (Token.mark.inj hc), by simp⟩

theorem readAtom_word {s : String} (h : Ends rest) :
    readAtom (fuel + 1) (.word s :: rest) = (operand? s).map fun x => (x, rest) := by
  cases rest with
  | nil => rfl
  | cons t rest =>
    have ht := h t rfl
    cases t with
    | word s => rfl
    | operator s =>
      have hs : s ≠ "->" := fun hs => ht.2 (congrArg Token.operator hs)
      simp [readAtom, hs]
    | mark c =>
      have hc : c ≠ '(' := fun hc => ht.1 (congrArg Token.mark hc)
      simp [readAtom, hc]

theorem readAtom_array {a : Expr} (fuel : Nat) (rest : List Token) (harray : a.IsArray)
    (ha : a.Legible) (h : Ends rest) :
    readAtom (fuel + 1) (a.tokens ++ rest) = some (a, rest) := by
  cases a with
  | var x =>
    rw [tokens, List.singleton_append, readAtom_word h, operand?_of_isName ha]
    rfl
  | state x =>
    have hx : isName x = true := ha
    simp [tokens, readAtom, hx]
  | _ => cases harray

theorem readPrefix_atom {ts : List Token} (hsign : ∀ s, ts.head? ≠ some (.operator s))
    (hcast : castType? ts = none) :
    readPrefix (fuel + 1) ts =
      (readAtom fuel ts).bind fun r => readPostfix fuel r.1 r.2 := by
  cases ts with
  | nil => simp [readPrefix, hcast]
  | cons t ts =>
    cases t with
    | operator s => exact absurd rfl (hsign s)
    | _ => simp [readPrefix, hcast]

/-- Operands of one word, or of a member of the state. -/
theorem readsPrefix_of_readAtom (hsign : ∀ rest s, (e.tokens ++ rest).head? ≠ some (.operator s))
    (hcast : ∀ rest, castType? (e.tokens ++ rest) = none)
    (h : ∀ fuel rest, 4 * e.tokens.length ≤ fuel + 2 → Ends rest →
      readAtom fuel (e.tokens ++ rest) = some (e, rest)) : e.ReadsPrefix := by
  intro fuel rest hfuel hstops
  have hlen := e.spine_lt_length
  obtain ⟨fuel, rfl⟩ : ∃ n, fuel = n + 2 := ⟨fuel - 2, by omega⟩
  rw [readPrefix_atom (hsign rest) (hcast rest), h _ rest (by omega) (ends_of_stops hstops),
    Option.bind_some, readPostfix_of_stops hstops]

theorem readsPrefix_var {x : String} (hx : (var x).Legible) : (var x).ReadsPrefix :=
  readsPrefix_of_readAtom (fun _ _ => nofun) (fun _ => rfl) fun fuel rest hfuel hends => by
    obtain ⟨fuel, rfl⟩ : ∃ n, fuel = n + 1 := ⟨fuel - 1, by simp [tokens] at hfuel; omega⟩
    exact readAtom_array _ _ trivial hx hends

theorem readsPrefix_state {x : String} (hx : (state x).Legible) : (state x).ReadsPrefix :=
  readsPrefix_of_readAtom (fun _ _ => nofun) (fun _ => rfl) fun fuel rest hfuel hends => by
    obtain ⟨fuel, rfl⟩ : ∃ n, fuel = n + 1 := ⟨fuel - 1, by simp [tokens] at hfuel; omega⟩
    exact readAtom_array _ _ trivial hx hends

theorem readsPrefix_num (n : Nat) : (num n).ReadsPrefix :=
  readsPrefix_of_readAtom (fun _ _ => nofun) (fun _ => rfl) fun fuel rest hfuel hends => by
    obtain ⟨fuel, rfl⟩ : ∃ n, fuel = n + 1 := ⟨fuel - 1, by simp [tokens] at hfuel; omega⟩
    rw [tokens, List.singleton_append, readAtom_word hends, operand?_repr]
    rfl

theorem readsPrefix_paren (he : e.Legible) (h : e.Reads) : (paren e).ReadsPrefix := by
  refine readsPrefix_of_readAtom (fun _ _ => nofun) (fun rest => ?_) fun fuel rest hfuel _ => ?_
  · rw [tokens, List.append_assoc]
    exact castType?_open he _
  · simp only [tokens, List.length_append, List.length_cons, List.length_nil] at hfuel
    obtain ⟨fuel, rfl⟩ : ∃ n, fuel = n + 1 := ⟨fuel - 1, by omega⟩
    have hread := h.closed ')' rest (by decide) (show 4 * e.tokens.length ≤ fuel by omega)
    simp [tokens, readAtom, hread, after?]

theorem readsPrefix_call (hf : isName f = true) (h : x.Reads) : (call f x).ReadsPrefix := by
  refine readsPrefix_of_readAtom (fun _ _ => nofun) (fun rest => rfl) fun fuel rest hfuel _ => ?_
  simp only [tokens, List.length_append, List.length_cons, List.length_nil] at hfuel
  obtain ⟨fuel, rfl⟩ : ∃ n, fuel = n + 1 := ⟨fuel - 1, by omega⟩
  have hread := h.closed ')' rest (by decide) (show 4 * x.tokens.length ≤ fuel by omega)
  simp [tokens, readAtom, hf, hread, after?]

theorem readsPrefix_call₂ (hf : isName f = true) (hx : x.Reads) (hy : y.Reads) :
    (call₂ f x y).ReadsPrefix := by
  refine readsPrefix_of_readAtom (fun _ _ => nofun) (fun rest => rfl) fun fuel rest hfuel _ => ?_
  simp only [tokens, List.length_append, List.length_cons, List.length_nil] at hfuel
  obtain ⟨fuel, rfl⟩ : ∃ n, fuel = n + 1 := ⟨fuel - 1, by omega⟩
  have hready := hy.closed ')' rest (by decide) (show 4 * y.tokens.length ≤ fuel by omega)
  have hreadx := hx.closed ',' (y.tokens ++ .mark ')' :: rest) (by decide)
    (show 4 * x.tokens.length ≤ fuel by omega)
  simp [tokens, readAtom, hf, hreadx, hready, after?]

theorem readsPrefix_index {a : Expr} (harray : a.IsArray) (ha : a.Legible) (hi : i.Reads) :
    (index a i).ReadsPrefix := by
  intro fuel rest hfuel hstops
  have hlen := a.spine_lt_length
  simp only [tokens, List.length_append, List.length_cons, List.length_nil] at hfuel
  obtain ⟨fuel, rfl⟩ : ∃ n, fuel = n + 3 := ⟨fuel - 3, by omega⟩
  have hatom := readAtom_array (fuel + 1) (.mark '[' :: (i.tokens ++ .mark ']' :: rest)) harray ha
    fun t ht => by cases ht; decide
  have hindex := hi.closed ']' rest (by decide)
    (show 4 * i.tokens.length ≤ fuel + 1 by omega)
  have htokens : (index a i).tokens ++ rest =
      a.tokens ++ .mark '[' :: (i.tokens ++ .mark ']' :: rest) := by simp [tokens]
  have hpostfix : readPostfix (fuel + 2) a (.mark '[' :: (i.tokens ++ .mark ']' :: rest)) =
      readPostfix (fuel + 1) (index a i) rest := by
    rw [readPostfix]
    simp [hindex, after?]
  rw [htokens, readPrefix_atom, hatom, Option.bind_some, hpostfix, readPostfix_of_stops hstops]
  · cases a with
    | var | state => exact fun s hs => by cases hs
    | _ => cases harray
  · cases a with
    | var | state => rfl
    | _ => cases harray

theorem readsPrefix_neg (h : e.ReadsPrefix) : (neg e).ReadsPrefix := by
  intro fuel rest hfuel hstops
  simp only [tokens, List.length_cons] at hfuel
  obtain ⟨fuel, rfl⟩ : ∃ n, fuel = n + 1 := ⟨fuel - 1, by omega⟩
  simp [tokens, readPrefix, h fuel rest (by omega) hstops]

theorem readsPrefix_not (h : e.ReadsPrefix) : (not e).ReadsPrefix := by
  intro fuel rest hfuel hstops
  simp only [tokens, List.length_cons] at hfuel
  obtain ⟨fuel, rfl⟩ : ∃ n, fuel = n + 1 := ⟨fuel - 1, by omega⟩
  simp [tokens, readPrefix, h fuel rest (by omega) hstops]

theorem readsPrefix_cast (d : DType) (h : e.ReadsPrefix) : (cast d e).ReadsPrefix := by
  intro fuel rest hfuel hstops
  simp only [tokens, List.length_cons] at hfuel
  obtain ⟨fuel, rfl⟩ : ∃ n, fuel = n + 1 := ⟨fuel - 1, by omega⟩
  simp [tokens, readPrefix, castType?, h fuel rest (by omega) hstops]

/-- An operator after its first operand, with a second operand that binds more tightly. -/
theorem reads_bin (hlevels : op.level ≤ x.level ∧ op.level < y.level) (hx : x.Reads)
    (hy : y.Reads) : (bin op x y).Reads := by
  intro fuel level rest hfuel hlevel hstops
  simp only [tokens, List.length_append, List.length_cons] at hfuel
  have hlevel : level ≤ op.level := hlevel
  have hspinex := x.spine_lt_length
  have hspiney := y.spine_lt_length
  have hfirst := hx fuel level (.operator op.symbol :: (y.tokens ++ rest)) (by omega)
    (Nat.le_trans hlevel hlevels.1) ⟨op, binary?_symbol op, hlevels.1⟩
  obtain ⟨n, hn⟩ : ∃ n, fuel - x.spine - 1 = n + 1 := ⟨fuel - x.spine - 2, by omega⟩
  have hstops : Stops op.level rest := hstops
  have hsecond := hy n (op.level + 1) rest (by omega) hlevels.2
    (hstops.mono (Nat.le_of_lt hlevels.2))
  obtain ⟨m, hm⟩ : ∃ m, n - y.spine - 1 = m + 1 := ⟨n - y.spine - 2, by omega⟩
  rw [hm, readRest_of_stops hstops (Nat.lt_succ_self _)] at hsecond
  have hrest : fuel - (bin op x y).spine - 1 = n := by
    rw [spine]
    omega
  rw [tokens, List.append_assoc, List.cons_append, hfirst, hn, hrest]
  simp [readRest, Nat.not_lt.2 hlevel, hsecond]

theorem reads_cond {c : Expr} (hlevel : 0 < c.level) (hc : c.Reads) (hx : x.Reads)
    (hy : y.Reads) : (cond c x y).Reads := by
  intro fuel level rest hfuel hzero hstops
  obtain rfl : level = 0 := Nat.le_zero.1 hzero
  have hstops : Stops 0 rest := hstops
  have hspine := c.spine_lt_length
  simp only [tokens, List.length_append, List.length_cons] at hfuel
  have htest := hc fuel 0 (.mark '?' :: (x.tokens ++ .mark ':' :: (y.tokens ++ rest))) (by omega)
    (Nat.zero_le _) ⟨by decide, by decide, fun _ => hlevel⟩
  obtain ⟨n, hn⟩ : ∃ n, fuel - c.spine - 1 = n + 1 := ⟨fuel - c.spine - 2, by omega⟩
  have hyes := hx.closed ':' (y.tokens ++ rest) (by decide)
    (show 4 * x.tokens.length ≤ n by omega)
  have hno := hy.complete hstops (show 4 * y.tokens.length ≤ n by omega)
  obtain ⟨m, hm⟩ : ∃ m, fuel - 0 - 1 = m + 1 := ⟨fuel - 2, by omega⟩
  have htokens : (cond c x y).tokens ++ rest =
      c.tokens ++ .mark '?' :: (x.tokens ++ .mark ':' :: (y.tokens ++ rest)) := by simp [tokens]
  rw [htokens, htest, hn, show (cond c x y).spine = 0 from rfl, hm, readRest_of_stops_zero hstops]
  simp [readRest, hyes, hno, after?]

/-- The tokens of a legible expression are read as the expression. -/
theorem Legible.reads {e : Expr} (h : e.Legible) : e.Reads ∧ (7 ≤ e.level → e.ReadsPrefix) := by
  have hoperand : ∀ {e : Expr}, e.ReadsPrefix → e.spine = 0 →
      e.Reads ∧ (7 ≤ e.level → e.ReadsPrefix) :=
    fun {e} hfirst hspine => ⟨hfirst.reads hspine, fun _ => hfirst⟩
  induction e with
  | var x => exact hoperand (readsPrefix_var h) rfl
  | state x => exact hoperand (readsPrefix_state h) rfl
  | num n => exact hoperand (readsPrefix_num n) rfl
  | realZero => cases h
  | paren e ih => exact hoperand (readsPrefix_paren h (ih h).1) rfl
  | index a i _ ih => exact hoperand (readsPrefix_index h.1 h.2.1 (ih h.2.2).1) rfl
  | call f x ih => exact hoperand (readsPrefix_call h.1 (ih h.2).1) rfl
  | call₂ f x y ihx ihy =>
    exact hoperand (readsPrefix_call₂ h.1 (ihx h.2.1).1 (ihy h.2.2).1) rfl
  | bin op x y ihx ihy =>
    refine ⟨reads_bin h.1 (ihx h.2.1).1 (ihy h.2.2).1, fun hlevel => ?_⟩
    exact absurd (Nat.lt_of_lt_of_le op.level_lt hlevel) (Nat.lt_irrefl _)
  | neg e ih => exact hoperand (readsPrefix_neg ((ih h.2).2 (by rw [h.1]; omega))) rfl
  | not e ih => exact hoperand (readsPrefix_not ((ih h.2).2 (by rw [h.1]; omega))) rfl
  | cond c x y ihc ihx ihy =>
    exact ⟨reads_cond h.1 (ihc h.2.1).1 (ihx h.2.2.1).1 (ihy h.2.2.2).1, by simp [level]⟩
  | cast d e ih => exact hoperand (readsPrefix_cast d ((ih h.2).2 h.1)) rfl

/-- The text of a legible expression stands for the expression. -/
theorem read?_render {e : Expr} (h : e.Legible) : read? e.render = some e := by
  have hread := h.reads.1.complete (show Stops 0 [] from trivial) (Nat.le_refl _)
  rw [List.append_nil] at hread
  rw [read?, lex_render h]
  simp [hread]

end Expr
end ArrayTrace.C
