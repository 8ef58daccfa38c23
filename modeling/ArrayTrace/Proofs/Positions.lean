import ArrayTrace.Emit.Elementwise
import ArrayTrace.Proofs.Accesses
import ArrayTrace.Proofs.Broadcasting
import Mathlib.Tactic.Ring

/-!
# Positions that emitted code computes

Index expressions over the counters of a loop nest have the values that the index
arithmetic of shapes gives: a linear position is the row-major offset, the indices of an
operand are the projected ones, and the indices within a selected part are relative to its
region. All of them stay within the shapes they are meant for.
-/

namespace ArrayTrace

/-! ## Multi-indices within shapes -/

namespace Shape
variable {s t : Shape} {ix : List Nat}

theorem InBounds.reverse (h : s.InBounds ix) : Shape.InBounds s.reverse ix.reverse :=
  inBounds_iff.2 (List.rel_reverse (inBounds_iff.1 h))

theorem InBounds.of_contains_full (hlen : ix.length = s.length)
    (h : (Region.full s).contains ix = true) : s.InBounds ix := by
  induction s generalizing ix with
  | nil => rw [List.eq_nil_of_length_eq_zero hlen]; trivial
  | cons d s ih =>
    cases ix with
    | nil => cases hlen
    | cons i ix =>
      have hcontains : i < d ∧ (Region.full s).contains ix = true := by
        simpa [Region.full, Span.contains] using h
      exact ⟨hcontains.1, ih (Nat.succ.inj hlen) hcontains.2⟩

/-- What a wider array is read at stays within an operand that spreads to it. -/
theorem InBounds.project (h : t.InBounds ix) (hspreads : s.spreadsTo t = true) :
    s.InBounds (s.project ix) := by
  obtain ⟨pre, u, rfl, hu⟩ := spreadsTo_iff.1 hspreads
  have hlen : ix.length - s.length = pre.length := by
    rw [h.length_eq, List.length_append, hu.length_eq, Nat.add_sub_cancel]
  have hdrop : List.Forall₂ (· < ·) (ix.drop pre.length) u := by
    simpa using List.forall₂_drop pre.length (inBounds_iff.1 h)
  rw [Shape.project, hlen]
  generalize ix.drop pre.length = js at hdrop
  clear h hspreads hlen
  induction hu generalizing js with
  | nil => cases hdrop; trivial
  | cons hde _ ih =>
    cases hdrop with
    | cons hlt hrest =>
      refine ⟨?_, ih _ hrest⟩
      beta_reduce
      split <;> omega

end Shape

namespace Emit
open C
variable {σ σ' : Names} {s : Shape} {es : List Expr} {ix : List Nat}

/-! ## Values of index expressions -/

/-- Expressions, each a single operand to any operator, with the indices that they stand
for. -/
def Denote (σ : Names) (es : List Expr) (ix : List Nat) : Prop :=
  List.Forall₂ (fun e i => e.level = 8 ∧ e.value? σ = some i) es ix

theorem value?_horner (h : Denote σ es ix) (hlen : s.length = es.length) {e : Expr} {k : Nat}
    (he : e.value? σ = some k) :
    ((s.zip es).foldl (fun e (d, i) => Expr.bin .add (.bin .mul (.paren e) (.num d)) i) e).value? σ
      = some (k * s.size + s.offset ix) := by
  induction s generalizing es ix e k with
  | nil => simpa [Shape.offset] using he
  | cons d ds ih =>
    cases h with
    | nil => cases hlen
    | @cons i j es ix hij hrest =>
      have hproduct : (Expr.bin .mul (.paren e) (.num d)).value? σ = some (k * d) :=
        Expr.value?_mul (by simp [Expr.level]) (by simp [Expr.level]) (by rwa [Expr.value?]) rfl
      have hstep : (Expr.bin .add (.bin .mul (.paren e) (.num d)) i).value? σ =
          some (k * d + j) :=
        Expr.value?_add (by simp [Expr.level, BinOp.level]) (by simp [hij.1]) hproduct hij.2
      rw [List.zip_cons_cons, List.foldl_cons, ih hrest (Nat.succ.inj hlen) hstep]
      congr 1
      rw [Shape.size_cons, Shape.offset]
      ring

/-- A linear position is the row-major offset. -/
theorem value?_linear (h : Denote σ es ix) (hlen : ix.length = s.length) :
    (linear s es).value? σ = some (s.offset ix) := by
  cases s with
  | nil => rfl
  | cons d ds =>
    cases h with
    | nil => cases hlen
    | cons hij hrest =>
      exact value?_horner hrest (by rw [hrest.length_eq]; exact (Nat.succ.inj hlen).symm) hij.2

theorem Denote.reverse (h : Denote σ es ix) : Denote σ es.reverse ix.reverse :=
  List.rel_reverse h

/-- The indices of an operand are the projected ones. -/
theorem Denote.aligned (h : Denote σ es ix) (s : Shape) :
    Denote σ (aligned s es) (s.project ix) := by
  have hdrop := List.forall₂_drop (es.length - s.length) h
  rw [Emit.aligned, Shape.project, ← h.length_eq]
  generalize es.drop (es.length - s.length) = fs, ix.drop (es.length - s.length) = js at hdrop
  clear h
  induction hdrop generalizing s with
  | nil => cases s <;> exact .nil
  | cons hij _ ih =>
    cases s with
    | nil => exact .nil
    | cons d ds =>
      refine .cons ?_ (ih ds)
      beta_reduce
      split
      · exact ⟨rfl, rfl⟩
      · exact hij

/-- Within the region, the difference to its start is not negative. -/
theorem Denote.relative (h : Denote σ es ix) {w : Window} (hix : w.region.contains ix = true) :
    Denote σ (relative w es) (w.relative ix) := by
  induction w generalizing es ix with
  | nil => cases h <;> exact .nil
  | cons a w ih =>
    cases h with
    | nil => exact .nil
    | @cons e i es ix hi hrest =>
      have hcontains := Region.contains_window_cons.1 hix
      have htail := ih hrest hcontains.2
      rw [Emit.relative, Window.relative]
      split
      · refine .cons ?_ htail
        split
        · rename_i hzero
          simpa [hzero] using hi
        · refine ⟨rfl, ?_⟩
          have hvalue : (Expr.bin .sub e (.num a.span.start)).value? σ =
              BinOp.sub.value? i a.span.start :=
            Expr.value?_bin (by rw [hi.1]; decide) (by simp [BinOp.level, Expr.level]) hi.2 rfl
          rw [Expr.group, Expr.value?, hvalue, BinOp.value?, if_pos hcontains.1.1]
      · exact htail

/-! ## Loop nests -/

/-- Names of arrays, which have an underscore in second place, and of the state. -/
def Reserved (x : String) : Prop := x.toList[1]? = some '_' ∨ x = "state"

instance (x : String) : Decidable (Reserved x) :=
  inferInstanceAs (Decidable (_ ∨ _))

theorem not_reserved_counter (axis : Nat) : ¬ Reserved (counter axis) := by
  have hchars : (counter axis).toList = 'i' :: Nat.toDigits 10 axis := by
    rw [counter, String.toList_append, Nat.toList_repr]
    rfl
  rintro (h | h)
  · rw [hchars, List.getElem?_cons_succ] at h
    have := Nat.isDigit_of_mem_toDigits (by omega) (by omega) (List.mem_of_getElem? h)
    simp at this
  · have hhead := congrArg String.toList h
    rw [hchars] at hhead
    cases hhead

theorem counter_injective : Function.Injective counter := by
  intro i j h
  exact Trace.repr_injective (by simpa [counter, String.append_right_inj] using h)

/-- `σ'` adds names to `σ` that hide no array. -/
def Keeps (σ σ' : Names) : Prop := ∀ x, Reserved x → σ' x = σ x

theorem Keeps.refl (σ : Names) : Keeps σ σ := fun _ _ => rfl

theorem Keeps.update (h : Keeps σ σ') {x : String} (hx : ¬ Reserved x) (b : Option Binding) :
    Keeps σ (Function.update σ' x b) := by
  intro y hy
  have hne : y ≠ x := fun he => hx (he ▸ hy)
  rw [Function.update_of_ne hne, h y hy]

/-- Counters of the axes from number `a` on, as expressions. -/
private theorem counters_eq (rank : Nat) :
    counters rank = (List.range' 0 rank).map fun axis => .var (counter axis) := by
  rw [counters, List.range_eq_range']

private theorem within_nest {ext : Extents} {r : Region} {a : Nat} {body : Stmt}
    (h : ∀ σ' ix, (∀ x, (∀ j, a ≤ j → x ≠ counter j) → σ' x = σ x) →
      r.contains ix = true → ix.length = r.length →
      Denote σ' ((List.range' a r.length).map fun axis => .var (counter axis)) ix →
      Within ext (body.accesses σ')) :
    Within ext ((Stmt.nest ((r.zipIdx a).map fun (s, axis) => ⟨counter axis, s.start, s.stop⟩)
      body).accesses σ) := by
  induction r generalizing a σ with
  | nil => exact h σ [] (fun _ _ => rfl) rfl rfl .nil
  | cons s r ih =>
    refine (Stmt.confined_loop fun k hstart hstop =>
      ih fun σ' ix hkeeps hix hlen hdenote => ?_).within
    have hcounter : σ' (counter a) = some (.counter k) := by
      rw [hkeeps _ fun j hj he => by have := counter_injective he; omega, Function.update_self]
    refine h σ' (k :: ix) (fun x hx => ?_) ?_ (congrArg Nat.succ hlen) ?_
    · rw [hkeeps x fun j hj => hx j (by omega), Function.update_of_ne (hx a (Nat.le_refl a))]
    · simpa [Span.contains, hix] using And.intro hstart hstop
    · rw [List.length_cons, List.range'_succ, List.map_cons]
      exact .cons ⟨rfl, by simp [Expr.value?, hcounter]⟩ hdenote

/-- The counters of a nest run through the multi-indices of its region. -/
theorem confined_nest {ext : Extents} {r : Region} {body : Stmt} (hbody : body.after σ = σ)
    (h : ∀ σ' ix, Keeps σ σ' → r.contains ix = true → ix.length = r.length →
      Denote σ' (counters r.length) ix → Within ext (body.accesses σ')) :
    Stmt.Confined ext σ (Stmt.nest (regionLoops r) body) where
  within := within_nest fun σ' ix hkeeps hix hlen hdenote =>
    h σ' ix (fun x hx => hkeeps x fun j _ he => not_reserved_counter j (he ▸ hx)) hix hlen
      (counters_eq _ ▸ hdenote)
  after_eq := by
    cases r with
    | nil => exact hbody
    | cons s r => rfl

/-- The counters of a nest over a shape run through its multi-indices. -/
theorem confined_nest_shape {ext : Extents} {body : Stmt} (hbody : body.after σ = σ)
    (h : ∀ σ' ix, Keeps σ σ' → s.InBounds ix → Denote σ' (counters s.length) ix →
      Within ext (body.accesses σ')) :
    Stmt.Confined ext σ (Stmt.nest (shapeLoops s) body) := by
  have hrank : (Region.full s).length = s.length := List.length_map _
  refine confined_nest hbody fun σ' ix hkeeps hix hlen hdenote => ?_
  rw [hrank] at hlen hdenote
  exact h σ' ix hkeeps (Shape.InBounds.of_contains_full hlen hix) hdenote

/-- The counters of a nest over a selected region run through the multi-indices of the
selected part, relative to the region. -/
theorem confined_nest_window {ext : Extents} {w : Window} {body : Stmt} (hfits : w.Fits s)
    (hbody : body.after σ = σ)
    (h : ∀ σ' ix, Keeps σ σ' → s.InBounds ix → w.shape.InBounds (w.relative ix) →
      Denote σ' (counters s.length) ix →
      Denote σ' (relative w (counters s.length)) (w.relative ix) →
      Within ext (body.accesses σ')) :
    Stmt.Confined ext σ (Stmt.nest (regionLoops w.region) body) := by
  refine confined_nest hbody fun σ' ix hkeeps hix hlen hdenote => ?_
  rw [Window.length_region] at hlen hdenote
  rw [hfits.length_eq] at hdenote
  exact h σ' ix hkeeps (hfits.inBounds hlen hix) (hfits.inBounds_relative hlen hix) hdenote
    (hdenote.relative hix)

end Emit
end ArrayTrace
