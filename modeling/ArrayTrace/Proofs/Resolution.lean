import ArrayTrace.Proofs.Windows
import Mathlib.Data.List.ReduceOption

/-!
# What selections resolve to

A selection fits a shape when it has at most one selector for each axis, and each of them asks
for positions that its axis has. It then resolves to the part it describes; otherwise it is
refused for having too many selectors, or else on the first axis whose selector asks for what is
not there, with the first of the tests that this selector fails.

## Main definitions

* `Selector.Valid` — what an axis of a given length offers.
* `Selector.Refused` — the errors, one for each test, in the order of the tests.
-/

namespace ArrayTrace

namespace Selector
variable {s : Selector} {axis d : Nat} {a : AxisWindow} {e : SelectionError}

/-- Whether an axis of length `d` has what is selected: a position of it, or a range of
consecutive positions. -/
def Valid (d : Nat) : Selector → Prop
  | point i => 0 ≤ i ∧ i < d
  | range a b step => step = 1 ∧ 0 ≤ a ∧ a ≤ b ∧ b ≤ d
  | whole => True

instance (d : Nat) : (s : Selector) → Decidable (s.Valid d)
  | point i => inferInstanceAs (Decidable (0 ≤ i ∧ i < d))
  | range a b step => inferInstanceAs (Decidable (step = 1 ∧ 0 ≤ a ∧ a ≤ b ∧ b ≤ d))
  | whole => .isTrue trivial

/-- The error of a selector that is not valid. A range is tested for its step, for negative
bounds, for the order of its bounds, and then against the axis. -/
inductive Refused (axis d : Nat) : Selector → SelectionError → Prop
  | negativePoint {i : Int} : i < 0 →
      Refused axis d (point i) (.unsupported axis (.negativePoint i))
  | point {i : Int} : 0 ≤ i → d ≤ i → Refused axis d (point i) (.outOfRange axis i d)
  | step {a b step : Int} : step ≠ 1 →
      Refused axis d (range a b step) (.unsupported axis (.step step))
  | negativeRange {a b : Int} : a < 0 ∨ b < 0 →
      Refused axis d (range a b 1) (.unsupported axis (.negativeRange a b))
  | reversedRange {a b : Int} : 0 ≤ b → b < a →
      Refused axis d (range a b 1) (.unsupported axis (.reversedRange a b))
  | range {a b : Int} : 0 ≤ a → a ≤ b → d < b →
      Refused axis d (range a b 1) (.outOfRange axis b d)

/-- Whether the axis is dropped. -/
def isPoint : Selector → Bool
  | point _ => true
  | _ => false

/-- The positions of an axis of length `d` that are selected. -/
def span (d : Nat) : Selector → Span
  | point i => ⟨i.toNat, i.toNat + 1⟩
  | range a b _ => ⟨a.toNat, b.toNat⟩
  | whole => ⟨0, d⟩

/-- What a valid selector resolves to. -/
def window (d : Nat) (s : Selector) : AxisWindow := ⟨s.span d, !s.isPoint⟩

theorem resolve_eq_ok_iff : s.resolve axis d = .ok a ↔ s.Valid d ∧ a = s.window d := by
  cases s with
  | whole => simp [resolve, Valid, window, span, isPoint, eq_comm]
  | point i =>
    simp only [resolve, Valid, window, span, isPoint]
    split_ifs with hneg hout
    · simp only [false_iff]
      omega
    · simp only [false_iff]
      omega
    · have hvalid : 0 ≤ i ∧ i < d := by omega
      simp [hvalid, eq_comm]
  | range b e step =>
    simp only [resolve, Valid, window, span, isPoint]
    split_ifs with hstep hneg hrev hout
    · simp only [false_iff]
      omega
    · simp only [false_iff]
      omega
    · simp only [false_iff]
      omega
    · simp only [false_iff]
      omega
    · have hvalid : step = 1 ∧ 0 ≤ b ∧ b ≤ e ∧ e ≤ d := by omega
      simp [hvalid, eq_comm]

/-- The tests come in the order of the constructors of `Refused`. -/
theorem resolve_eq_error_iff : s.resolve axis d = .error e ↔ s.Refused axis d e := by
  constructor
  · intro h
    cases s with
    | whole => cases h
    | point i =>
      simp only [resolve] at h
      split_ifs at h with hneg hout
      · cases h
        exact .negativePoint hneg
      · cases h
        exact .point (by omega) (by omega)
    | range b e step =>
      simp only [resolve] at h
      split_ifs at h with hstep hneg hrev hout
      · cases h
        exact .step hstep
      · cases h
        obtain rfl : step = 1 := by omega
        exact .negativeRange hneg
      · cases h
        obtain rfl : step = 1 := by omega
        exact .reversedRange (by omega) hrev
      · cases h
        obtain rfl : step = 1 := by omega
        exact .range (by omega) (by omega) (by omega)
  · intro h
    cases h with
    | negativePoint hneg => rw [resolve, if_pos hneg]
    | point hnonneg hout => rw [resolve, if_neg (by omega), if_pos (by omega)]
    | step hstep => rw [resolve, if_pos hstep]
    | negativeRange hneg => rw [resolve, if_neg (by omega), if_pos hneg]
    | reversedRange hnonneg hrev =>
      rw [resolve, if_neg (by omega), if_neg (by omega), if_pos hrev]
    | range hnonneg hle hout =>
      rw [resolve, if_neg (by omega), if_neg (by omega), if_neg (by omega), if_pos (by omega)]

/-- What is selected lies within the axis. -/
theorem span_within (h : s.Valid d) : (s.span d).start ≤ (s.span d).stop ∧ (s.span d).stop ≤ d := by
  cases s with
  | whole => exact ⟨Nat.zero_le d, Nat.le_refl d⟩
  | point i =>
    simp only [Valid, span] at h ⊢
    omega
  | range a b step =>
    simp only [Valid, span] at h ⊢
    omega

end Selector

namespace Selection
variable {s : Selection} {shape : Shape} {w : Window} {axis start d : Nat} {e : SelectionError}

/-- What is selected along an axis. -/
def entry (s : Selection) (axis : Nat) : Selector := s[axis]?.getD .whole

theorem entry_of_le (h : s.length ≤ axis) : s.entry axis = .whole := by
  rw [entry, List.getElem?_eq_none h, Option.getD_none]

theorem entry_tail (s : Selection) (axis : Nat) : entry s.tail axis = s.entry (axis + 1) := by
  rw [entry, List.getElem?_tail, entry]

/-- Whether every axis of a shape has what is selected along it. -/
def Valid (s : Selection) (shape : Shape) : Prop :=
  ∀ axis d, shape[axis]? = some d → (s.entry axis).Valid d

/-- The error of the first axis that does not have what is selected along it, where the axes are
numbered from `start` on. -/
def Refused (s : Selection) (start : Nat) (shape : Shape) (e : SelectionError) : Prop :=
  ∃ axis d, shape[axis]? = some d ∧ (s.entry axis).Refused (start + axis) d e ∧
    s.Valid (shape.take axis)

theorem valid_cons : s.Valid (d :: shape) ↔ (s.entry 0).Valid d ∧ Valid s.tail shape := by
  constructor
  · intro h
    refine ⟨h 0 d rfl, fun axis d' hd => ?_⟩
    rw [entry_tail]
    exact h (axis + 1) d' hd
  · rintro ⟨hfirst, hrest⟩ axis d' hd
    cases axis with
    | zero =>
      cases hd
      exact hfirst
    | succ axis => exact entry_tail s axis ▸ hrest axis d' hd

instance : (s : Selection) → (shape : Shape) → Decidable (s.Valid shape)
  | _, [] => .isTrue nofun
  | s, _ :: shape =>
    have : Decidable (Valid s.tail shape) := instDecidableValid s.tail shape
    decidable_of_iff _ valid_cons.symm

theorem refused_cons : s.Refused start (d :: shape) e ↔ (s.entry 0).Refused start d e ∨
    (s.entry 0).Valid d ∧ Refused s.tail (start + 1) shape e := by
  constructor
  · rintro ⟨axis, d', hd, he, hvalid⟩
    cases axis with
    | zero =>
      cases hd
      exact .inl he
    | succ axis =>
      rw [List.take_succ_cons, valid_cons] at hvalid
      refine .inr ⟨hvalid.1, axis, d', hd, ?_, hvalid.2⟩
      rwa [entry_tail, Nat.add_right_comm]
  · rintro (he | ⟨hfirst, axis, d', hd, he, hvalid⟩)
    · exact ⟨0, d, rfl, he, nofun⟩
    · refine ⟨axis + 1, d', hd, ?_, valid_cons.2 ⟨hfirst, hvalid⟩⟩
      rwa [entry_tail, Nat.add_right_comm] at he

/-- The axes are resolved one after the other, and those that are left out are selected whole. -/
theorem resolveFrom_cons (s : Selection) (start d : Nat) (shape : Shape) :
    s.resolveFrom start (d :: shape) = (do
      let first ← (s.entry 0).resolve start d
      let rest ← resolveFrom (start + 1) s.tail shape
      return first :: rest) := by
  cases s with
  | nil => rfl
  | cons x s => rfl

/-- The window of a selection with its selectors resolved one by one. -/
def window (s : Selection) (shape : Shape) : Window :=
  shape.mapIdx fun axis d => (s.entry axis).window d

theorem window_cons : s.window (d :: shape) = (s.entry 0).window d :: window s.tail shape := by
  simp only [window, List.mapIdx_cons, entry_tail]

theorem resolveFrom_eq_ok_iff :
    s.resolveFrom start shape = .ok w ↔ s.Valid shape ∧ w = s.window shape := by
  induction shape generalizing s start w with
  | nil =>
    have hvalid : s.Valid [] := nofun
    simp [resolveFrom, hvalid, window, eq_comm]
  | cons d shape ih =>
    simp only [resolveFrom_cons, Except.bind_eq_ok, Selector.resolve_eq_ok_iff, ih, valid_cons,
      window_cons]
    constructor
    · rintro ⟨first, ⟨hfirst, rfl⟩, rest, ⟨hrest, rfl⟩, h⟩
      exact ⟨⟨hfirst, hrest⟩, (Except.ok.inj h).symm⟩
    · rintro ⟨⟨hfirst, hrest⟩, rfl⟩
      exact ⟨_, ⟨hfirst, rfl⟩, _, ⟨hrest, rfl⟩, rfl⟩

theorem resolveFrom_eq_error_iff :
    s.resolveFrom start shape = .error e ↔ s.Refused start shape e := by
  induction shape generalizing s start with
  | nil =>
    have hnone : ¬ s.Refused start [] e := by
      rintro ⟨axis, d, hd, -⟩
      cases hd
    simp [resolveFrom, hnone]
  | cons d shape ih =>
    rw [resolveFrom_cons, refused_cons, Except.bind_eq_error, Selector.resolve_eq_error_iff]
    refine or_congr_right ?_
    simp only [Selector.resolve_eq_ok_iff, Except.bind_eq_error, ih]
    constructor
    · rintro ⟨first, ⟨hfirst, -⟩, hrest | ⟨rest, -, h⟩⟩
      · exact ⟨hfirst, hrest⟩
      · cases h
    · rintro ⟨hfirst, hrest⟩
      exact ⟨_, ⟨hfirst, rfl⟩, .inl hrest⟩

/-! ## The part that is selected -/

theorem length_region_window (s : Selection) (shape : Shape) :
    (s.window shape).region.length = shape.length := by
  rw [Window.length_region, window, List.length_mapIdx]

theorem getElem?_region_window (s : Selection) (shape : Shape) (axis : Nat) :
    (s.window shape).region[axis]? = shape[axis]?.map (s.entry axis).span := by
  simp [Window.region, window, Selector.window, Function.comp_def]

/-- The lengths of the result are those of the axes that are not dropped. -/
theorem shape_window (s : Selection) (shape : Shape) :
    (s.window shape).shape = (shape.mapIdx fun axis d =>
      if (s.entry axis).isPoint then none
      else some ((s.entry axis).span d).length).reduceOption := by
  induction shape generalizing s with
  | nil => rfl
  | cons d shape ih =>
    have hrest := ih s.tail
    simp only [entry_tail, Window.shape] at hrest
    rw [window_cons, List.mapIdx_cons, Window.shape]
    cases hpoint : (s.entry 0).isPoint with
    | true =>
      rw [List.filter_cons_of_neg (by simp [Selector.window, hpoint]), hrest, if_pos rfl,
        List.reduceOption_cons_of_none]
    | false =>
      rw [List.filter_cons_of_pos (by simp [Selector.window, hpoint]), List.map_cons, hrest,
        if_neg Bool.false_ne_true, List.reduceOption_cons_of_some]
      rfl

/-- A selection resolves exactly when it has at most one selector for each axis, all of them
valid, to one range within each axis, and to the whole of those left out. Otherwise it is refused
for the number of its selectors, or else for the first one that is not valid. -/
theorem resolve_exact (s : Selection) (shape : Shape) :
    ((∃ w, s.resolve shape = .ok w) ↔ s.length ≤ shape.length ∧ s.Valid shape) ∧
    (∀ w, s.resolve shape = .ok w →
      w.region.length = shape.length ∧
      (∀ axis d, shape[axis]? = some d → ∃ span, w.region[axis]? = some span ∧
        span = (s.entry axis).span d ∧ span.start ≤ span.stop ∧ span.stop ≤ d) ∧
      (∀ axis d, s.length ≤ axis → shape[axis]? = some d → w.region[axis]? = some ⟨0, d⟩) ∧
      w.shape = (shape.mapIdx fun axis d =>
        if (s.entry axis).isPoint then none
        else some ((s.entry axis).span d).length).reduceOption) ∧
    ∀ e, s.resolve shape = .error e ↔
      (shape.length < s.length ∧ e = .outOfRange shape.length (s.length - 1) 0) ∨
      (s.length ≤ shape.length ∧ s.Refused 0 shape e) := by
  have hok : ∀ w, s.resolve shape = .ok w ↔
      s.length ≤ shape.length ∧ s.Valid shape ∧ w = s.window shape := by
    intro w
    rw [resolve]
    split_ifs with hmany
    · simp only [false_iff]
      omega
    · rw [resolveFrom_eq_ok_iff]
      exact (and_iff_right (Nat.not_lt.1 hmany)).symm
  refine ⟨?_, fun w hw => ?_, fun e => ?_⟩
  · simp only [hok, exists_and_left, exists_eq, and_true]
  · obtain ⟨-, hvalid, rfl⟩ := (hok w).1 hw
    refine ⟨length_region_window s shape, fun axis d hd => ?_, fun axis d haxis hd => ?_,
      shape_window s shape⟩
    · have hspan : (s.window shape).region[axis]? = some ((s.entry axis).span d) := by
        rw [getElem?_region_window, hd, Option.map_some]
      exact ⟨_, hspan, rfl, Selector.span_within (hvalid axis d hd)⟩
    · rw [getElem?_region_window, hd, entry_of_le haxis]
      rfl
  · rw [resolve]
    split_ifs with hmany
    · simp [hmany, Nat.not_le.2 hmany, eq_comm]
    · rw [resolveFrom_eq_error_iff]
      simp [hmany, Nat.not_lt.1 hmany]

/-- A row and a range of columns are resolved, with the layers behind them whole. Of two invalid
selectors the first one counts, and it is refused for its step, although its bounds are reversed
and out of range as well. -/
theorem resolve_exact_rows :
    (∃ w, resolve [.point 1, .range 0 2 1] [3, 3, 4] = .ok w ∧ w.shape = [2, 4] ∧
      w.region = [⟨1, 2⟩, ⟨0, 2⟩, ⟨0, 4⟩]) ∧
    resolve [.whole, .range 9 5 2, .point (-1)] [3, 3, 4] =
      .error (.unsupported 1 (.step 2)) := by
  obtain ⟨hok, hpart, -⟩ := resolve_exact [.point 1, .range 0 2 1] [3, 3, 4]
  obtain ⟨-, -, herror⟩ := resolve_exact [.whole, .range 9 5 2, .point (-1)] [3, 3, 4]
  obtain ⟨w, hw⟩ := hok.2 ⟨by decide, by decide⟩
  obtain ⟨hlen, hspan, hwhole, hshape⟩ := hpart w hw
  obtain ⟨row, hrow, rfl, -⟩ := hspan 0 3 rfl
  obtain ⟨columns, hcolumns, rfl, -⟩ := hspan 1 3 rfl
  refine ⟨⟨w, hw, hshape, ?_⟩, ?_⟩
  · refine List.ext_getElem? fun axis => ?_
    match axis with
    | 0 => exact hrow
    | 1 => exact hcolumns
    | 2 => exact hwhole 2 4 (by decide) rfl
    | axis + 3 => rw [List.getElem?_eq_none (by rw [hlen]; simp), List.getElem?_eq_none (by simp)]
  · exact (herror _).2 (.inr ⟨by decide, 1, 3, rfl, .step (by decide), by decide⟩)

end Selection
end ArrayTrace
