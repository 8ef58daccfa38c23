import ArrayTrace.Proofs.Containment
import ArrayTrace.Proofs.Reading
import ArrayTrace.Text.Blank

/-!
# Reading tables

The definition of a constant array is read back from its text: the element type, the declared
length, and between the braces the initializers, which commas set apart. A table of integers or
Booleans is read as the elements that it was written from. The state of a unit is created by
copying whole tables, each to an array that is declared with the same element type and length.

## Main definitions

* `declared?` — element type and length of an array that is declared under a name.
* `integer?` — the 64-bit integer that a constant stands for.
* `definition?` — what the definition of a constant array says.
-/

namespace ArrayTrace.C

/-! ## Reading -/

/-- The text before the first occurrence of a character, and the text after it. -/
def cut? (c : Char) (cs : List Char) : Option (List Char × List Char) :=
  match cs.dropWhile (· ≠ c) with
  | [] => none
  | _ :: rest => some (cs.takeWhile (· ≠ c), rest)

/-- Element type and length of the array that is declared under a name at the start of a text,
and what comes after them. -/
def declared? (name : String) (cs : List Char) : Option (DType × Nat × List Char) := do
  let (type, cs) ← cut? ' ' cs
  let cs ← cs.dropPrefix? (name ++ "[").toList
  let (length, cs) ← cut? ']' cs
  return (← elementType? (String.ofList type), ← number? (String.ofList length), cs)

/-- The written initializers of a list. There may be a comma after the last one. -/
def initializers (cs : List Char) : List (List Char) :=
  let pieces := (cs.splitOn ',').map Text.trim
  if pieces.getLast? = some [] then pieces.dropLast else pieces

/-- The number that digits stand for, if there is such a positive 64-bit integer or it is 0. -/
def magnitude? (cs : List Char) : Option Nat :=
  (number? (String.ofList cs)).filter (· < 2 ^ 63)

/-- The integer that digits with or without a sign stand for. The sign does not belong to the
constant, so the least integer cannot be written. -/
def signed? : List Char → Option Int64
  | '-' :: cs => (magnitude? cs).map fun n : Nat => Int64.ofInt (-n)
  | cs => (magnitude? cs).map fun n : Nat => Int64.ofInt n

/-- The 64-bit integer that a constant stands for. -/
def integer? (cs : List Char) : Option Int64 :=
  if cs = "INT64_MIN".toList then some Int64.minValue
  else
    match cs.dropPrefix? "INT64_C(".toList with
    | none => signed? cs
    | some cs => do
      let (digits, rest) ← cut? ')' cs
      if rest.isEmpty then signed? digits else none

/-- The element that an initializer stands for. -/
def element? : (d : DType) → List Char → Option d.Elem
  | .i64, cs => integer? cs
  | .bool, ['1'] => some true
  | .bool, ['0'] => some false
  | _, _ => none

/-- What the definition of a constant array says. -/
structure Definition where
  type : DType
  length : Nat
  initializers : List (List Char)

/-- Element type and length in the definition of a constant array, and what comes after them. -/
def head? (name text : String) : Option (DType × Nat × List Char) :=
  (text.toList.dropPrefix? "static const ".toList).bind (declared? name)

/-- The definition of a constant array of a name. -/
def definition? (name text : String) : Option Definition := do
  let (type, length, cs) ← head? name text
  let cs ← cs.dropPrefix? " = \x7b".toList
  let (list, cs) ← cut? '\x7d' cs
  if cs = ";\n".toList then return ⟨type, length, initializers list⟩ else none

/-! ## Pieces of a text -/

variable {c : Char} {cs front rest : List Char} {name : String}

theorem cut?_append (h : c ∉ front) : cut? c (front ++ c :: rest) = some (front, rest) := by
  have hfront : ∀ x ∈ front, decide (x ≠ c) = true := fun x hx =>
    decide_eq_true fun hxc => h (hxc ▸ hx)
  rw [cut?, List.dropWhile_append_of_pos hfront, List.takeWhile_append_of_pos hfront]
  simp

theorem dropPrefix?_append (xs ys : List Char) : (xs ++ ys).dropPrefix? xs = some ys :=
  List.dropPrefix?_append_of_beq ys (beq_self_eq_true xs)

/-- Pieces that each end in a comma are split there. -/
theorem splitOn_flatMap {pieces : List (List Char)} (h : ∀ p ∈ pieces, c ∉ p) (hlast : c ∉ rest) :
    ((pieces.flatMap (· ++ [c])) ++ rest).splitOn c = pieces ++ [rest] := by
  induction pieces with
  | nil =>
    have hsplit : ([c].intercalate [rest]).splitOn c = [rest] :=
      List.splitOn_intercalate c (by simpa using hlast) (List.cons_ne_nil _ _)
    simpa using hsplit
  | cons p pieces ih =>
    obtain ⟨hp, hpieces⟩ := List.forall_mem_cons.1 h
    have hchars : ∀ x ∈ p, (x == c) = false := fun x hx => by
      simpa using fun hxc : x = c => hp (hxc ▸ hx)
    have hsplit := ih hpieces
    rw [List.splitOn_eq_splitOnP] at hsplit ⊢
    rw [List.flatMap_cons, List.append_assoc, List.append_assoc, List.singleton_append,
      List.splitOnP_append_cons_of_forall_mem hchars c (beq_self_eq_true c), hsplit]
    rfl

/-- Blanks in front of a text without any are taken away. -/
theorem trim_append (hfront : front.all Text.isBlank = true)
    (h : ∀ x ∈ cs, Text.isBlank x = false) : Text.trim (front ++ cs) = cs := by
  have hdrop : ∀ xs : List Char, (∀ x ∈ xs, Text.isBlank x = false) →
      xs.dropWhile Text.isBlank = xs := by
    intro xs hxs
    cases xs with
    | nil => rfl
    | cons x xs => rw [List.dropWhile_cons_of_neg (by simp [hxs x])]
  rw [Text.trim, List.dropWhile_append_of_pos (List.all_eq_true.1 hfront), hdrop cs h,
    hdrop _ fun x hx => h x (List.mem_reverse.1 hx), List.reverse_reverse]

/-! ## Declarations -/

theorem number?_repr (n : Nat) : number? n.repr = some n := by
  have hoperand := operand?_repr n
  rw [operand?] at hoperand
  split at hoperand
  · cases hoperand
  · obtain ⟨m, hm, hnum⟩ := Option.map_eq_some_iff.1 hoperand
    cases hnum
    exact hm

theorem declared?_append (d : DType) (n : Nat) :
    declared? name (d.cType.toList ++ ' ' :: ((name ++ "[").toList ++
      (n.repr.toList ++ ']' :: rest))) = some (d, n, rest) := by
  have htype : ' ' ∉ d.cType.toList := by cases d <;> decide
  have hlength : ']' ∉ n.repr.toList := fun h => by cases Trace.isDigit_of_mem_repr h
  rw [declared?, cut?_append htype]
  simp only [Option.bind_eq_bind, Option.bind_some, dropPrefix?_append, cut?_append hlength,
    String.ofList_toList, elementType?_cType, number?_repr]
  rfl

/-! ## Integers -/

theorem toList_repr_negSucc (m : Nat) :
    (Int.negSucc m).repr.toList = '-' :: (m + 1).repr.toList := by
  simp [Int.repr]

theorem mem_repr {n : Int} (h : c ∈ n.repr.toList) : c = '-' ∨ c.isDigit = true := by
  cases n with
  | ofNat m => exact .inr (Trace.isDigit_of_mem_repr h)
  | negSucc m =>
    rw [toList_repr_negSucc] at h
    exact (List.mem_cons.1 h).imp id Trace.isDigit_of_mem_repr

theorem magnitude?_repr {n : Nat} (h : n < 2 ^ 63) : magnitude? n.repr.toList = some n := by
  rw [magnitude?, String.ofList_toList, number?_repr, Option.filter_some, decide_eq_true h]
  rfl

theorem signed?_of_digits {cs : List Char} (h : ∀ c ∈ cs, c.isDigit = true) :
    signed? cs = (magnitude? cs).map fun n : Nat => Int64.ofInt n := by
  rw [signed?]
  rintro rest rfl
  cases h '-' List.mem_cons_self

theorem signed?_repr {x : Int64} (h : x ≠ Int64.minValue) :
    signed? x.toInt.repr.toList = some x := by
  have hlt := x.toInt_lt
  have hle := x.le_toInt
  have hne : x.toInt ≠ -2 ^ 63 := fun he =>
    h (Int64.toInt_inj.1 (he.trans Int64.toInt_minValue.symm))
  cases hx : x.toInt with
  | ofNat m =>
    have hm : m < 2 ^ 63 := by
      rw [hx, Int.ofNat_eq_natCast] at hlt
      omega
    have hrepr : (Int.ofNat m).repr = m.repr := rfl
    rw [hrepr, signed?_of_digits fun _ => Trace.isDigit_of_mem_repr, magnitude?_repr hm,
      Option.map_some, ← Int64.ofInt_toInt x, hx]
    rfl
  | negSucc m =>
    have hm : m + 1 < 2 ^ 63 := by
      rw [hx] at hle hne
      omega
    rw [toList_repr_negSucc, signed?, magnitude?_repr hm, Option.map_some, ← Int64.ofInt_toInt x,
      hx]
    rfl

/-- An integer is read back from its constant. -/
theorem integer?_int64Text (x : Int64) : integer? (int64Text x).toList = some x := by
  rw [int64Text]
  split
  · rename_i hx
    rw [hx, integer?, if_pos rfl]
  · rename_i hx
    have hparen : ')' ∉ x.toInt.repr.toList := fun hmem => by
      rcases mem_repr hmem with h | h <;> cases h
    have hlist : ("INT64_C(" ++ x.toInt.repr ++ ")").toList =
        "INT64_C(".toList ++ (x.toInt.repr.toList ++ ')' :: []) := by simp
    have hmin : "INT64_C(".toList ++ (x.toInt.repr.toList ++ ')' :: []) ≠
        "INT64_MIN".toList := by simp
    rw [hlist, integer?, if_neg hmin, dropPrefix?_append]
    simp [cut?_append hparen, signed?_repr hx]

/-! ## Initializers -/

/-- Whether a character can stand inside an initializer. -/
def isInner (c : Char) : Bool := !Text.isBlank c && c ≠ ',' && c ≠ '\x7d'

theorem isInner_of_isDigit (h : c.isDigit = true) : isInner c = true := by
  have hrange : 48 ≤ c.toNat ∧ c.toNat ≤ 57 := by
    simpa [Char.isDigit, UInt32.le_iff_toNat_le] using h
  have hblank : Text.isBlank c = false := by
    simp only [Text.isBlank, Text.inRanges, Text.blankRanges, List.any_cons, List.any_nil,
      Bool.or_false, Bool.or_eq_false_iff, Bool.and_eq_false_iff, decide_eq_false_iff_not]
    omega
  have hmarks : c ≠ ',' ∧ c ≠ '\x7d' := by
    constructor <;> (rintro rfl; cases h)
  simp [isInner, hblank, hmarks]

theorem isInner_int64Text (x : Int64) : (int64Text x).toList.all isInner = true := by
  rw [int64Text]
  split
  · decide
  · have hopen : "INT64_C(".toList.all isInner = true := by decide
    have hclose : ")".toList.all isInner = true := by decide
    have hdigits : x.toInt.repr.toList.all isInner = true := List.all_eq_true.2 fun c hc => by
      rcases mem_repr hc with rfl | hc
      · decide
      · exact isInner_of_isDigit hc
    rw [String.toList_append, String.toList_append, List.all_append, List.all_append, hopen,
      hdigits, hclose]
    rfl

/-- An element that is no float is written without blanks, commas and braces. -/
theorem isInner_elemText {d : DType} (h : d.isFloat = false) (x : d.Elem) :
    (elemText d x).toList.all isInner = true := by
  cases d with
  | i64 => exact isInner_int64Text x
  | bool => cases x <;> decide
  | f64 => cases h
  | f32 => cases h

/-- An element that is no float is read back from its initializer. -/
theorem element?_elemText {d : DType} (h : d.isFloat = false) (x : d.Elem) :
    element? d (elemText d x).toList = some x := by
  cases d with
  | i64 => exact integer?_int64Text x
  | bool => cases x <;> rfl
  | f64 => cases h
  | f32 => cases h

/-! ## Lists of initializers -/

theorem flatten_chunks {α : Type} {n fuel : Nat} (hn : 0 < n) {xs : List α}
    (h : xs.length ≤ fuel) : (chunks n fuel xs).flatten = xs := by
  induction fuel generalizing xs with
  | zero =>
    obtain rfl := List.length_eq_zero_iff.1 (Nat.le_zero.1 h)
    rfl
  | succ fuel ih =>
    cases xs with
    | nil => rfl
    | cons x xs =>
      have hdrop : ((x :: xs).drop n).length ≤ fuel := by
        rw [List.length_drop]
        omega
      rw [chunks, List.flatten_cons, ih hdrop, List.take_append_drop]
      nofun

theorem ne_nil_of_mem_chunks {α : Type} {n fuel : Nat} (hn : 0 < n) {xs row : List α}
    (h : row ∈ chunks n fuel xs) : row ≠ [] := by
  induction fuel generalizing xs with
  | zero => simp [chunks] at h
  | succ fuel ih =>
    cases xs with
    | nil => simp [chunks] at h
    | cons x xs =>
      rw [chunks] at h
      · rcases List.mem_cons.1 h with rfl | h
        · simp [Nat.ne_of_gt hn]
        · exact ih h
      · nofun

namespace Table

/-- A line of initializers. -/
def rowText (row : List String) : String := "  " ++ ", ".intercalate row ++ ","

/-- What stands in front of the commas of a line that comes after a line break. -/
def padded : List String → List (List Char)
  | [] => []
  | s :: ss => ("\n  ".toList ++ s.toList) :: ss.map fun s => ' ' :: s.toList

theorem cons_rowText {row : List String} (h : row ≠ []) :
    '\n' :: (rowText row).toList = (padded row).flatMap (· ++ [',']) := by
  have hrest : ∀ ss : List String, ∀ s, (", ".intercalate (s :: ss)).toList ++ [','] =
      s.toList ++ ',' :: (ss.map fun s => ' ' :: s.toList).flatMap (· ++ [',']) := by
    intro ss
    induction ss with
    | nil => simp
    | cons s' ss ih =>
      intro s
      rw [String.intercalate_cons_cons, String.toList_append, List.append_assoc, ih]
      simp
  cases row with
  | nil => exact absurd rfl h
  | cons s ss =>
    rw [rowText, String.toList_append, String.toList_append, List.append_assoc,
      show ",".toList = [','] from rfl, hrest]
    simp [padded]

/-- The lines between the braces, as they are split at the commas. -/
theorem cons_flatMap_rowText {rows : List (List String)} (h : ∀ row ∈ rows, row ≠ []) :
    '\n' :: rows.flatMap (fun row => (rowText row ++ "\n").toList) =
      (rows.flatMap padded).flatMap (· ++ [',']) ++ ['\n'] := by
  induction rows with
  | nil => rfl
  | cons row rows ih =>
    obtain ⟨hrow, hrows⟩ := List.forall_mem_cons.1 h
    rw [List.flatMap_cons, List.flatMap_cons, List.flatMap_append, List.append_assoc, ← ih hrows,
      ← cons_rowText hrow]
    simp

theorem map_trim_padded {row : List String} (h : ∀ s ∈ row, s.toList.all isInner = true) :
    (padded row).map Text.trim = row.map String.toList := by
  have hplain : ∀ s ∈ row, ∀ c ∈ s.toList, Text.isBlank c = false := by
    intro s hs c hc
    have hinner := List.all_eq_true.1 (h s hs) c hc
    simp only [isInner, Bool.and_eq_true, Bool.not_eq_true'] at hinner
    exact hinner.1.1
  cases row with
  | nil => rfl
  | cons s ss =>
    obtain ⟨hs, hss⟩ := List.forall_mem_cons.1 hplain
    have hfirst : Text.trim ("\n  ".toList ++ s.toList) = s.toList := trim_append rfl hs
    rw [padded, List.map_cons, List.map_cons, List.map_map, hfirst]
    congr 1
    refine List.map_congr_left fun s hmem => ?_
    have hspace : Text.trim ([' '] ++ s.toList) = s.toList := trim_append rfl (hss s hmem)
    exact hspace

theorem mem_padded {row : List String} (h : ∀ s ∈ row, s.toList.all isInner = true)
    {p : List Char} (hp : p ∈ padded row) (hc : c ∈ p) : isInner c = true ∨ c = ' ' ∨ c = '\n' := by
  have hinner : ∀ s ∈ row, ∀ c ∈ s.toList, isInner c = true := fun s hs =>
    List.all_eq_true.1 (h s hs)
  cases row with
  | nil => cases hp
  | cons s ss =>
    obtain ⟨hs, hss⟩ := List.forall_mem_cons.1 hinner
    rcases List.mem_cons.1 hp with rfl | hp
    · rcases List.mem_append.1 hc with hc | hc
      · have hpad : "\n  ".toList = ['\n', ' ', ' '] := rfl
        rw [hpad] at hc
        simp only [List.mem_cons, List.not_mem_nil, or_false, or_self] at hc
        exact .inr hc.symm
      · exact .inl (hs c hc)
    · obtain ⟨s', hs', rfl⟩ := List.mem_map.1 hp
      rcases List.mem_cons.1 hc with rfl | hc
      · exact .inr (.inl rfl)
      · exact .inl (hss s' hs' c hc)

/-- The elements are read back from the lines between the braces. -/
theorem initializers_rows {rows : List (List String)} (hrows : ∀ row ∈ rows, row ≠ [])
    (h : ∀ s ∈ rows.flatten, s.toList.all isInner = true) :
    initializers ('\n' :: rows.flatMap (fun row => (rowText row ++ "\n").toList)) =
      rows.flatten.map String.toList := by
  have hrow : ∀ row ∈ rows, ∀ s ∈ row, s.toList.all isInner = true := fun row hmem s hs =>
    h s (List.mem_flatten.2 ⟨row, hmem, hs⟩)
  have hcomma : ∀ p ∈ rows.flatMap padded, ',' ∉ p := by
    intro p hp hc
    obtain ⟨row, hmem, hp⟩ := List.mem_flatMap.1 hp
    rcases mem_padded (hrow row hmem) hp hc with h | h | h <;> cases h
  have htrim : (rows.flatMap padded).map Text.trim = rows.flatten.map String.toList := by
    rw [List.map_flatMap, List.map_flatten, List.flatMap_def]
    congr 1
    exact List.map_congr_left fun row hmem => map_trim_padded (hrow row hmem)
  have hlast : Text.trim ['\n'] = [] := by decide
  rw [initializers, cons_flatMap_rowText hrows, splitOn_flatMap hcomma (by decide), List.map_append,
    htrim, List.map_singleton, hlast]
  simp

theorem not_mem_rows {rows : List (List String)} (hrows : ∀ row ∈ rows, row ≠ [])
    (h : ∀ s ∈ rows.flatten, s.toList.all isInner = true) :
    '\x7d' ∉ '\n' :: rows.flatMap (fun row => (rowText row ++ "\n").toList) := by
  rw [cons_flatMap_rowText hrows]
  intro hmem
  rcases List.mem_append.1 hmem with hmem | hmem
  · obtain ⟨p, hp, hc⟩ := List.mem_flatMap.1 hmem
    rcases List.mem_append.1 hc with hc | hc
    · obtain ⟨row, hrow, hp⟩ := List.mem_flatMap.1 hp
      have hinner : ∀ s ∈ row, s.toList.all isInner = true := fun s hs =>
        h s (List.mem_flatten.2 ⟨row, hrow, hs⟩)
      rcases mem_padded hinner hp hc with h | h | h <;> cases h
    · cases List.mem_singleton.1 hc
  · cases List.mem_singleton.1 hmem

/-! ## Definitions of tables -/

variable (t : Table)

/-- The written definition. -/
def text : String := String.join (t.lines.map (· ++ "\n"))

/-- The elements of a table. One without elements has a zero. -/
def elements : List t.value.dtype.Elem :=
  if t.value.array.data.isEmpty then [t.value.dtype.zero] else t.value.array.data

/-- The lines of initializers. -/
def rows : List (List String) := chunks 8 t.texts.length t.texts

theorem flatten_rows : t.rows.flatten = t.texts := flatten_chunks (by omega) (Nat.le_refl _)

theorem toList_text : t.text.toList = "static const ".toList ++ (t.value.dtype.cType.toList ++
    ' ' :: ((t.name ++ "[").toList ++ (t.texts.length.repr.toList ++ ']' :: (" = \x7b".toList ++
      ('\n' :: t.rows.flatMap (fun row => (rowText row ++ "\n").toList) ++
        '\x7d' :: ";\n".toList))))) := by
  simp [text, lines, rows, rowText, String.toList_join, List.flatMap_map]

theorem head?_text : ∃ rest, head? t.name t.text = some (t.value.dtype, t.texts.length, rest) := by
  have hhead : ∀ rest, (("static const ".toList ++ (t.value.dtype.cType.toList ++
      ' ' :: ((t.name ++ "[").toList ++ (t.texts.length.repr.toList ++ ']' :: rest)))).dropPrefix?
        "static const ".toList).bind (declared? t.name) =
      some (t.value.dtype, t.texts.length, rest) := by
    intro rest
    rw [dropPrefix?_append, Option.bind_some, declared?_append]
  rw [head?, toList_text]
  exact ⟨_, hhead _⟩

variable {t}

theorem isInner_texts (h : t.value.dtype.isFloat = false) :
    ∀ s ∈ t.texts, s.toList.all isInner = true := by
  intro s hs
  rw [texts] at hs
  split at hs
  · rw [List.mem_singleton.1 hs]
    decide
  · obtain ⟨x, -, rfl⟩ := List.mem_map.1 hs
    exact isInner_elemText h x

/-- The written elements are read as the elements. -/
theorem mapM_element?_texts (h : t.value.dtype.isFloat = false) :
    (t.texts.map String.toList).mapM (element? t.value.dtype) = some t.elements := by
  rw [mapM_eq_some, List.forall₂_map_left_iff, texts, elements]
  split
  · have hzero : ∀ d : DType, d.isFloat = false → element? d "0".toList = some d.zero := by
      intro d hd
      cases d <;> first | rfl | cases hd
    exact .cons (hzero _ h) .nil
  · exact List.forall₂_map_left_iff.2 (List.forall₂_same.2 fun x _ => element?_elemText h x)

/-- A table of integers or Booleans declares as many elements as it has, and its initializers
are read as these. -/
theorem definition?_text (h : t.value.dtype.isFloat = false) :
    ∃ d, definition? t.name t.text = some d ∧ d.type = t.value.dtype ∧
      d.length = max 1 t.value.type.size ∧
      d.initializers.mapM (element? t.value.dtype) = some t.elements := by
  have hrows : ∀ row ∈ t.rows, row ≠ [] := fun row => ne_nil_of_mem_chunks (by omega)
  have hinner : ∀ s ∈ t.rows.flatten, s.toList.all isInner = true := by
    rw [flatten_rows]
    exact isInner_texts h
  refine ⟨⟨t.value.dtype, t.texts.length, t.texts.map String.toList⟩, ?_, rfl, ?_,
    mapM_element?_texts h⟩
  · rw [definition?, head?, toList_text, dropPrefix?_append, Option.bind_some, declared?_append]
    simp only [Option.bind_eq_bind, Option.bind_some, dropPrefix?_append,
      cut?_append (not_mem_rows hrows hinner), initializers_rows hrows hinner, flatten_rows,
      if_true]
    rfl
  · exact t.length_texts.trans (Nat.max_comm _ _)

end Table

/-! ## Creating the state of a unit -/

namespace SourceFile
variable {u : SourceFile}

/-- The tables are part of the unit as they are written. -/
theorem exists_render_eq {T : Table} (hT : T ∈ u.constants ++ u.initials) :
    ∃ front back, u.render = front ++ T.text ++ back := by
  obtain ⟨before, after, hsplit⟩ := List.append_of_mem hT
  have htables : u.constants.flatMap Table.lines ++ u.initials.flatMap Table.lines =
      before.flatMap Table.lines ++ T.lines ++ after.flatMap Table.lines := by
    rw [← List.flatMap_append, hsplit, List.flatMap_append, List.flatMap_cons, List.append_assoc]
  have hlines : ∃ front back, u.lines = front ++ T.lines ++ back := by
    refine ⟨["/* " ++ u.name ++ ": generated by whisper-jit */"] ++ preamble ++ [""] ++
      before.flatMap Table.lines, after.flatMap Table.lines ++
      ([""] ++ u.stateLines ++ [""] ++ u.stateFunctions ++ [""] ++ u.callFunction), ?_⟩
    simp only [lines, List.append_assoc] at htables ⊢
    rw [← List.append_assoc (u.constants.flatMap _), htables]
    simp only [List.append_assoc]
  obtain ⟨front, back, hlines⟩ := hlines
  refine ⟨String.join (front.map (· ++ "\n")), String.join (back.map (· ++ "\n")), ?_⟩
  rw [render, hlines, List.map_append, List.map_append, String.join_append, String.join_append,
    Table.text]

/-- A member is declared with its element type and length. -/
theorem exists_declared?_member {m : Member} (hm : m ∈ u.members) :
    ∃ line ∈ u.stateLines, ∃ rest,
      (line.toList.dropPrefix? "  ".toList).bind (declared? m.name) =
        some (m.type, m.length, rest) := by
  refine ⟨_, List.mem_append_left _ (List.mem_append_right _ (List.mem_map_of_mem hm)), ";".toList,
    ?_⟩
  have hline : ("  " ++ m.type.cType ++ " " ++ m.name ++ "[" ++ m.length.repr ++ "];").toList =
      "  ".toList ++ (m.type.cType.toList ++ ' ' :: ((m.name ++ "[").toList ++
        (m.length.repr.toList ++ ']' :: ";".toList))) := by simp
  rw [hline, dropPrefix?_append, Option.bind_some, declared?_append]

/-- The state of a unit is created by copying whole tables, each to an array of the state whose
definition has the same element type and length. -/
structure CopiesWhole (u : SourceFile) (copies : List (Table × Member)) : Prop where
  initials_eq : u.initials = copies.map Prod.fst
  initialCopies_eq : u.initialCopies =
    .all (copies.map fun c => .copyWhole (.state c.2.name) (.var c.1.name))
  mem_members : ∀ c ∈ copies, c.2 ∈ u.members
  declared : ∀ c ∈ copies, ∃ line ∈ u.stateLines, ∃ d n rest rest',
    (line.toList.dropPrefix? "  ".toList).bind (declared? c.2.name) = some (d, n, rest) ∧
      head? c.1.name c.1.text = some (d, n, rest')
  members_nodup : (u.members.map Member.name).Nodup
  tables_nodup : ((u.constants ++ u.initials).map Table.name).Nodup

end SourceFile

end ArrayTrace.C

namespace ArrayTrace.Trace
variable {t : Trace} {plan : Plan} {unitName : String} {steps results : List C.Stmt}

/-- The table of the initial value of a node and the array of the state that it is copied to. -/
def copies (t : Trace) (plan : Plan) : List (C.Table × C.Member) :=
  (t.nodesAt plan.roots).filterMap fun n => n.initialTable?.map fun T => (T, n.member .state)

theorem mem_copies {c : C.Table × C.Member} (h : c ∈ t.copies plan) :
    ∃ n ∈ t.nodesAt plan.roots, n.isState = true ∧ n.kind = .state c.1.value ∧
      c.1.name = "i_" ++ n.name ∧ c.2 = n.member .state := by
  obtain ⟨n, hn, hc⟩ := List.mem_filterMap.1 h
  obtain ⟨T, hT, rfl⟩ := Option.map_eq_some_iff.1 hc
  obtain ⟨hname, hkind⟩ := name_of_initialTable? hT
  exact ⟨n, hn, by rw [Node.isState, hkind], hkind, hname, rfl⟩

theorem mem_members_of_copies {c : C.Table × C.Member} (h : c ∈ t.copies plan) :
    c.2 ∈ (t.unitOf plan unitName steps results).members := by
  obtain ⟨n, hn, hstate, -, -, hmember⟩ := mem_copies h
  rw [hmember]
  exact List.mem_append_left _ (List.mem_append_left _
    (List.mem_map_of_mem (List.mem_filter.2 ⟨hn, hstate⟩)))

theorem initialCopies_unitOf :
    (t.unitOf plan unitName steps results).initialCopies =
      .all ((t.copies plan).map fun c => .copyWhole (.state c.2.name) (.var c.1.name)) := by
  have hstatements : ∀ ns : List Node,
      ((ns.filter Node.isState).map Node.name).map
          (fun v => C.Stmt.copyWhole (.state ("v_" ++ v)) (.var ("i_" ++ v))) =
        (ns.filterMap fun n => n.initialTable?.map fun T => (T, n.member .state)).map
          fun c => .copyWhole (.state c.2.name) (.var c.1.name) := by
    intro ns
    induction ns with
    | nil => rfl
    | cons n ns ih =>
      cases hk : n.kind with
      | state initial =>
        rw [List.filter_cons_of_pos (by rw [Node.isState, hk]), List.map_cons, List.map_cons, ih,
          List.filterMap_cons_some (by rw [Node.initialTable?, hk]; rfl), List.map_cons]
        rfl
      | _ =>
        rw [List.filter_cons_of_neg (by rw [Node.isState, hk]; exact Bool.false_ne_true), ih,
          List.filterMap_cons_none (by rw [Node.initialTable?, hk]; rfl)]
  exact congrArg C.Stmt.all (hstatements _)

theorem copiesWhole_unitOf (ht : t.WellFormed) (h : t.Ready plan) (hnodup : plan.roots.Nodup) :
    (t.unitOf plan unitName steps results).CopiesWhole (t.copies plan) where
  initials_eq := by
    rw [copies, List.map_filterMap]
    refine List.filterMap_congr fun n _ => ?_
    rw [Option.map_map]
    exact Option.map_id'.symm
  initialCopies_eq := initialCopies_unitOf
  mem_members _ := mem_members_of_copies
  declared c hc := by
    obtain ⟨n, hn, -, hkind, -, hmember⟩ := mem_copies hc
    obtain ⟨line, hline, rest, hread⟩ :=
      C.SourceFile.exists_declared?_member (mem_members_of_copies hc)
    obtain ⟨rest', hread'⟩ := c.1.head?_text
    have hadmits := ht.admits (ht.mem_nodesAt.1 hn).1
    have htype : n.type = c.1.value.type := by simpa only [Admits, hkind] using hadmits
    have hlength : c.1.texts.length = c.2.length := by
      rw [c.1.length_texts, hmember, Node.member, htype]
    have hdtype : c.1.value.dtype = c.2.type := by
      rw [hmember, Node.member, htype]
      rfl
    rw [hlength, hdtype] at hread'
    exact ⟨line, hline, _, _, rest, rest', hread, hread'⟩
  members_nodup := members_nodup ht h hnodup
  tables_nodup := tables_nodup ht h hnodup

/-- The definition that is written for an array of integers or Booleans is read back as its
elements in row-major order, or a zero if there are none. The state of the unit of a compiled
program is created by copying whole tables to arrays that are declared alike. -/
theorem Reachable.tables_decode (ht : t.Reachable) {outputs : List NodeId}
    {options : CompileOptions} {p : Program} (hp : t.compile outputs options = .ok p) :
    (∀ T : C.Table, T.value.dtype.isFloat = false →
      ∃ d, C.definition? T.name T.text = some d ∧ d.type = T.value.dtype ∧
        d.length = max 1 T.value.type.size ∧
        d.initializers.mapM (C.element? T.value.dtype) = some T.elements) ∧
    ∃ u copies, t.unit p.plan options.unitName = .ok (u, p.signature) ∧
      p.unit.source = u.render ∧
      (∀ T ∈ u.constants ++ u.initials, ∃ front back, u.render = front ++ T.text ++ back) ∧
      u.CopiesWhole copies := by
  refine ⟨fun T hT => T.definition?_text hT, ?_⟩
  obtain ⟨hready, hnodup, storage, steps, results, -, -, -, hunit, hsource⟩ :=
    ht.exists_storage_of_compile hp
  exact ⟨_, t.copies p.plan, hunit, hsource, fun T hT => C.SourceFile.exists_render_eq hT,
    copiesWhole_unitOf ht.wellFormed hready hnodup⟩

/-- States with the least integer in them and with no elements. -/
def seeded : Trace :=
  [Call.state "x" (.vector .i64 [Int64.minValue, -1, 7]),
    .state "e" ⟨.bool, ⟨[0, 3], [], rfl⟩⟩].foldl Trace.after { id := 0 }

/-- The state without elements is copied from a table with a zero. -/
theorem tables_decode_seeded :
    ∃ (p : Program) (u : C.SourceFile) (copies : List (C.Table × C.Member)),
      seeded.compile [⟨0, 0⟩, ⟨0, 1⟩] {} = .ok p ∧ p.unit.source = u.render ∧
      u.CopiesWhole copies ∧ (copies.map fun c => c.1.name) = ["i_x", "i_e"] ∧
      (∃ d, C.definition? "i_x" (C.Table.text ⟨"i_x", .vector .i64 [Int64.minValue, -1, 7]⟩) =
        some d ∧ d.length = 3 ∧
        d.initializers.mapM (C.element? .i64) = some [Int64.minValue, -1, 7]) ∧
      ∃ d, C.definition? "i_e" (C.Table.text ⟨"i_e", ⟨.bool, ⟨[0, 3], [], rfl⟩⟩⟩) = some d ∧
        d.length = 1 ∧ d.initializers.mapM (C.element? .bool) = some [false] := by
  have ht : seeded.Reachable := .calls (.start 0 {}) _
  have houtputs : ∀ o ∈ [(⟨0, 0⟩ : NodeId), ⟨0, 1⟩], seeded.contains o = true := by decide
  obtain ⟨p, hp, hcompiled⟩ := ht.compile_eq_ok houtputs {} rfl (by decide)
  obtain ⟨hdecode, u, copies, hunit, hsource, -, hcopies⟩ := Reachable.tables_decode ht hp
  have hnames : (seeded.unit p.plan "jit_unit").map (fun r => r.1.initials.map C.Table.name) =
      .ok ["i_x", "i_e"] := by
    rw [hcompiled.plan_eq]
    rfl
  rw [hunit, Except.map, hcopies.initials_eq, List.map_map] at hnames
  refine ⟨p, u, copies, hp, hsource, hcopies, Except.ok.inj hnames, ?_, ?_⟩
  · obtain ⟨d, hd, -, hlength, helements⟩ :=
      hdecode ⟨"i_x", .vector .i64 [Int64.minValue, -1, 7]⟩ rfl
    exact ⟨d, hd, hlength, helements⟩
  · obtain ⟨d, hd, -, hlength, helements⟩ :=
      hdecode ⟨"i_e", ⟨.bool, ⟨[0, 3], [], rfl⟩⟩⟩ rfl
    exact ⟨d, hd, hlength, helements⟩

end ArrayTrace.Trace
