import ArrayTrace.C.SourceFile
import ArrayTrace.Signature
import Mathlib.Logic.Function.Basic

/-!
# Accesses of emitted code

Which elements emitted code reads and writes depends on its loops and index expressions
alone, never on the elements. Running the counters through their ranges, over naturals,
gives the list of all accesses of a unit. An access is in bounds when the array it goes to
is there and long enough; a place in the code that is no access to an array at a natural
position, such as a subtraction that would be negative, is never in bounds.
-/

namespace ArrayTrace.C

/-! ## Values of index expressions -/

/-- How tightly an operator binds. -/
def BinOp.level : BinOp → Nat
  | or => 1
  | and => 2
  | eq | ne => 3
  | lt | gt | le | ge => 4
  | add | sub => 5
  | mul | div | rem => 6

/-- Value on naturals. Differences must not be negative. -/
def BinOp.value? : BinOp → Nat → Nat → Option Nat
  | add, a, b => some (a + b)
  | sub, a, b => if b ≤ a then some (a - b) else none
  | mul, a, b => some (a * b)
  | _, _, _ => none

/-- What a local name stands for. -/
inductive Binding
  | counter (n : Nat)
  /-- A number that is no position. -/
  | scalar
  | state
  | arguments
  | outputs
  /-- The argument at a position, read as an array of elements of a type. -/
  | argument (position : Nat) (type : DType)
deriving DecidableEq

/-- Local names in scope. -/
abbrev Names := String → Option Binding

/-- An array that emitted code can reach. -/
inductive Buffer
  | member (name : String)
  | table (name : String)
  | argument (position : Nat) (type : DType)
  /-- The argument at a position, of no particular type. -/
  | passed (position : Nat)
  | output (position : Nat)
  /-- The array of the arguments. -/
  | arguments
  /-- The array of the outputs. -/
  | outputs
deriving DecidableEq

/-- One access to memory. -/
inductive Access
  | element (buffer : Buffer) (position : Nat)
  | copy (target source : Buffer) (bytes : Nat)
  /-- A copy of as many bytes as a member has. -/
  | fill (member : String) (source : Buffer)
  /-- No access to an array at a natural position. -/
  | stray
deriving DecidableEq

namespace Expr

/-- How tightly the outermost operator of an expression binds. -/
def level : Expr → Nat
  | cond .. => 0
  | bin op _ _ => op.level
  | neg _ | not _ | cast .. => 7
  | _ => 8

/-- Value of an index expression. An expression whose text does not read as its tree has
none. -/
def value? (σ : Names) : Expr → Option Nat
  | var x =>
    match σ x with
    | some (.counter n) => some n
    | _ => none
  | num n => some n
  | paren e => e.value? σ
  | bin op x y =>
    if op.level ≤ x.level ∧ op.level < y.level then
      match x.value? σ, y.value? σ with
      | some a, some b => op.value? a b
      | _, _ => none
    else none
  | _ => none

/-- The array that an expression names. A name that is not local is that of a table. -/
def buffer? (σ : Names) : Expr → Option Buffer
  | var x =>
    match σ x with
    | none => some (.table x)
    | some (.argument i d) => some (.argument i d)
    | some .arguments => some .arguments
    | some .outputs => some .outputs
    | _ => none
  | state x => if σ "state" = some .state then some (.member x) else none
  | index a i =>
    match a.buffer? σ, i.value? σ with
    | some .arguments, some k => some (.passed k)
    | some .outputs, some k => some (.output k)
    | _, _ => none
  | _ => none

/-- Accesses of evaluating an expression. -/
def accesses (σ : Names) : Expr → List Access
  | var _ | state _ | num _ | realZero => []
  | paren e | neg e | not e | cast _ e | call _ e => e.accesses σ
  | call₂ _ x y | bin _ x y => x.accesses σ ++ y.accesses σ
  | cond c x y => c.accesses σ ++ x.accesses σ ++ y.accesses σ
  | index a i =>
    i.accesses σ ++
      [match a.buffer? σ, i.value? σ with
        | some b, some k => .element b k
        | _, _ => .stray]

/-- Accesses of storing into a place: an element of an array, or a local number. -/
def placeAccesses (σ : Names) : Expr → List Access
  | index a i => (index a i).accesses σ
  | var x => if σ x = some .scalar then [] else [.stray]
  | _ => [.stray]

end Expr

namespace Stmt

/-- Names in scope after a statement. -/
def after (σ : Names) : Stmt → Names
  | seq s₁ s₂ => s₂.after (s₁.after σ)
  | declare _ x _ => Function.update σ x (some .scalar)
  | bind d x i => Function.update σ x (some (.argument i d))
  | _ => σ

/-- Accesses of running a statement, for every value of every counter. -/
def accesses (σ : Names) : Stmt → List Access
  | skip | comment _ => []
  | seq s₁ s₂ => s₁.accesses σ ++ s₂.accesses (s₁.after σ)
  | declare _ _ v | ret v => v.accesses σ
  | bind _ _ i => (Expr.index (.var "args") (.num i)).accesses σ
  | store p v | accumulate p v => p.placeAccesses σ ++ v.accesses σ
  | copy p v n =>
    p.accesses σ ++ v.accesses σ ++
      [match p.buffer? σ, v.buffer? σ with
        | some target, some source => .copy target source n
        | _, _ => .stray]
  | copyWhole p v =>
    [match p.buffer? σ, v.buffer? σ with
      | some (.member x), some source => .fill x source
      | _, _ => .stray]
  | ifLine c s => c.accesses σ ++ s.accesses σ
  | loop l s | loopLine l s =>
    (List.range' l.start (l.stop - l.start)).flatMap fun k =>
      s.accesses (Function.update σ l.var (some (.counter k)))
  | block s => s.accesses σ

end Stmt

/-! ## Bounds -/

/-- Number of elements of an array, and bytes of each. -/
structure Extent where
  length : Nat
  width : Nat
deriving DecidableEq

/-- Bytes of all elements. -/
def Extent.bytes (e : Extent) : Nat := e.length * e.width

/-- The arrays that are there. -/
abbrev Extents := Buffer → Option Extent

/-- Whether an access stays within the arrays it goes to. An output is always copied
whole. -/
def Access.InBounds (ext : Extents) : Access → Prop
  | element b k => ∃ e, ext b = some e ∧ k < e.length
  | copy target source n => ∃ d s, ext target = some d ∧ ext source = some s ∧
      n ≤ d.bytes ∧ n ≤ s.bytes ∧ ∀ i, target = .output i → n = d.bytes
  | fill x source => ∃ d s, ext (.member x) = some d ∧ ext source = some s ∧ d.bytes ≤ s.bytes
  | stray => False

namespace SourceFile

/-- Bytes of a pointer. -/
def pointerSize : Nat := 8

/-- The arrays of a unit and of a caller that keeps to the unit's signature. -/
def extent? (u : SourceFile) (s : Signature) : Extents
  | .member x => (u.members.find? fun m => m.name = x).map fun m => ⟨m.length, m.type.size⟩
  | .table x =>
    ((u.constants ++ u.initials).find? fun c => c.name = x).map fun c =>
      ⟨c.texts.length, c.value.dtype.size⟩
  | .argument i d => (s.parameters[i]?.filter fun p => p.type.dtype = d).map fun p =>
      ⟨p.type.size, d.size⟩
  | .passed i => s.parameters[i]?.map fun p => ⟨p.type.size, p.type.dtype.size⟩
  | .output i => s.outputs[i]?.map fun p => ⟨p.type.size, p.type.dtype.size⟩
  | .arguments => some ⟨u.parameterCount, pointerSize⟩
  | .outputs => some ⟨u.outputCount, pointerSize⟩

/-- Names in scope where a state is created. -/
def newNames : Names := Function.update (fun _ => none) "state" (some .state)

/-- Names in scope where the unit runs. -/
def callNames : Names :=
  Function.update (Function.update newNames "args" (some .arguments)) "outs" (some .outputs)

/-- Accesses of creating a state and of running the unit. -/
def accesses (u : SourceFile) : List Access :=
  u.initialCopies.accesses newNames ++ u.body.accesses callNames

/-- A unit whose accesses are in bounds and whose arrays have names of their own. -/
structure Contained (u : SourceFile) (s : Signature) : Prop where
  inBounds : ∀ a ∈ u.accesses, a.InBounds (u.extent? s)
  members_nodup : (u.members.map Member.name).Nodup
  tables_nodup : ((u.constants ++ u.initials).map Table.name).Nodup

end SourceFile

/-! ## Bounds of composed code -/

/-- All accesses of a list are in bounds. -/
def Within (ext : Extents) (as : List Access) : Prop := ∀ a ∈ as, a.InBounds ext

variable {ext : Extents} {σ : Names}

@[simp] theorem within_nil : Within ext [] := nofun

@[simp] theorem within_append {as bs : List Access} :
    Within ext (as ++ bs) ↔ Within ext as ∧ Within ext bs := List.forall_mem_append

@[simp] theorem within_singleton {a : Access} : Within ext [a] ↔ a.InBounds ext := by
  simp [Within]

/-- An operation has a value where its operands need no parentheses. -/
theorem Expr.value?_bin {op : BinOp} {x y : Expr} {a b : Nat} (hx : op.level ≤ x.level)
    (hy : op.level < y.level) (ha : x.value? σ = some a) (hb : y.value? σ = some b) :
    (bin op x y).value? σ = op.value? a b := by
  rw [value?, if_pos ⟨hx, hy⟩, ha, hb]

theorem Expr.value?_add {x y : Expr} {a b : Nat} (hx : 5 ≤ x.level) (hy : 5 < y.level)
    (ha : x.value? σ = some a) (hb : y.value? σ = some b) :
    (bin .add x y).value? σ = some (a + b) :=
  value?_bin hx hy ha hb

theorem Expr.value?_mul {x y : Expr} {a b : Nat} (hx : 6 ≤ x.level) (hy : 6 < y.level)
    (ha : x.value? σ = some a) (hb : y.value? σ = some b) :
    (bin .mul x y).value? σ = some (a * b) :=
  value?_bin hx hy ha hb

/-- An expression that has a value accesses nothing. -/
theorem Expr.accesses_of_value? {e : Expr} {k : Nat} (h : e.value? σ = some k) :
    e.accesses σ = [] := by
  induction e generalizing k with
  | var x => rfl
  | num n => rfl
  | paren e ih => exact ih h
  | bin op x y ihx ihy =>
    rw [value?] at h
    split at h
    · split at h
      · rw [accesses, ihx ‹_›, ihy ‹_›]
        rfl
      · cases h
    · cases h
  | _ => cases h

/-- Reading an element at a position below the length. -/
theorem Expr.within_index {a i : Expr} {b : Buffer} {e : Extent} {k : Nat}
    (ha : a.buffer? σ = some b) (he : ext b = some e) (hi : i.value? σ = some k)
    (hk : k < e.length) : Within ext ((index a i).accesses σ) := by
  simp only [accesses, accesses_of_value? hi, ha, hi, List.nil_append, within_singleton]
  exact ⟨e, he, hk⟩

@[simp] theorem Expr.accesses_convert (e : Expr) (src dst : DType) :
    (e.convert src dst).accesses σ = e.accesses σ := by
  rw [convert]
  split
  · rfl
  · split <;> simp [group, accesses]

namespace Stmt
variable {s s₁ s₂ : Stmt} {ss : List Stmt} {l : Loop}

/-- A statement whose accesses are in bounds and that declares no names. -/
structure Confined (ext : Extents) (σ : Names) (s : Stmt) : Prop where
  within : Within ext (s.accesses σ)
  after_eq : s.after σ = σ

theorem confined_skip : Confined ext σ skip := ⟨within_nil, rfl⟩

theorem Confined.seq (h₁ : Confined ext σ s₁) (h₂ : Confined ext σ s₂) :
    Confined ext σ (seq s₁ s₂) where
  within := by
    rw [accesses, h₁.after_eq]
    exact within_append.2 ⟨h₁.within, h₂.within⟩
  after_eq := by rw [after, h₁.after_eq, h₂.after_eq]

theorem Confined.comment {text : String} (h : Confined ext σ s) :
    Confined ext σ (.seq (.comment text) s) :=
  Confined.seq ⟨within_nil, rfl⟩ h

theorem confined_all (h : ∀ s ∈ ss, Confined ext σ s) : Confined ext σ (all ss) := by
  induction ss with
  | nil => exact confined_skip
  | cons s ss ih =>
    obtain ⟨hs, hss⟩ := List.forall_mem_cons.1 h
    exact hs.seq (ih hss)

theorem confined_loop
    (h : ∀ k, l.start ≤ k → k < l.stop →
      Within ext (s.accesses (Function.update σ l.var (some (.counter k))))) :
    Confined ext σ (loop l s) where
  within := by
    rw [accesses]
    intro a ha
    obtain ⟨k, hk, ha⟩ := List.mem_flatMap.1 ha
    rw [List.mem_range'_1] at hk
    exact h k hk.1 (by omega) a ha
  after_eq := rfl

example : (loop ⟨"j", 1, 3⟩ (store (.index (.state "t_y") (.bin .sub (.num 2) (.var "j")))
    (.index (.var "c_k") (.num 0)))).accesses SourceFile.newNames =
      [.element (.member "t_y") 1, .element (.table "c_k") 0,
        .element (.member "t_y") 0, .element (.table "c_k") 0] := by decide

theorem confined_loopLine
    (h : ∀ k, l.start ≤ k → k < l.stop →
      Within ext (s.accesses (Function.update σ l.var (some (.counter k))))) :
    Confined ext σ (loopLine l s) :=
  ⟨(confined_loop h).within, rfl⟩

theorem confined_store {p v : Expr} (hp : Within ext (p.placeAccesses σ))
    (hv : Within ext (v.accesses σ)) : Confined ext σ (store p v) :=
  ⟨within_append.2 ⟨hp, hv⟩, rfl⟩

theorem within_all_append {ss' : List Stmt} (h : Within ext ((all ss).accesses σ))
    (h' : Within ext ((all ss').accesses ((all ss).after σ))) :
    Within ext ((all (ss ++ ss')).accesses σ) := by
  induction ss generalizing σ with
  | nil => exact h'
  | cons s ss ih =>
    obtain ⟨hs, hss⟩ := within_append.1 h
    exact within_append.2 ⟨hs, ih hss h'⟩

theorem after_all_append {ss ss' : List Stmt} {σ : Names} :
    (all (ss ++ ss')).after σ = (all ss').after ((all ss).after σ) := by
  induction ss generalizing σ with
  | nil => rfl
  | cons st ss ih => exact ih

end Stmt

/-! ## Arrays by name -/

theorem find?_of_nodup {α : Type} {key : α → String} {as : List α} (h : (as.map key).Nodup) {a : α}
    (ha : a ∈ as) : (as.find? fun x => key x = key a) = some a := by
  induction as with
  | nil => cases ha
  | cons b as ih =>
    obtain ⟨hb, has⟩ := List.nodup_cons.1 h
    rcases List.mem_cons.1 ha with rfl | ha
    · exact List.find?_cons_of_pos (decide_eq_true rfl)
    · have hne : key b ≠ key a := fun he => hb (he ▸ List.mem_map_of_mem ha)
      rw [List.find?_cons_of_neg (by simpa using hne), ih has ha]

namespace SourceFile
variable {u : SourceFile} {s : Signature}

theorem extent?_member (h : (u.members.map Member.name).Nodup) {m : Member} (hm : m ∈ u.members) :
    u.extent? s (.member m.name) = some ⟨m.length, m.type.size⟩ := by
  rw [extent?, find?_of_nodup h hm, Option.map_some]

theorem extent?_table (h : ((u.constants ++ u.initials).map Table.name).Nodup) {c : Table}
    (hc : c ∈ u.constants ++ u.initials) :
    u.extent? s (.table c.name) = some ⟨c.texts.length, c.value.dtype.size⟩ := by
  rw [extent?, find?_of_nodup h hc, Option.map_some]

end SourceFile

/-- A table has an element for every element of its value, and at least one. -/
theorem Table.length_texts (c : Table) : c.texts.length = max c.value.type.size 1 := by
  have hsize : c.value.array.data.length = c.value.type.size := c.value.array.length_data
  rw [texts]
  split
  · rename_i hempty
    rw [List.isEmpty_iff] at hempty
    rw [← hsize, hempty]
    rfl
  · rename_i hnonempty
    rw [List.isEmpty_iff, ← List.length_eq_zero_iff, hsize] at hnonempty
    rw [List.length_map, hsize]
    omega

end ArrayTrace.C
