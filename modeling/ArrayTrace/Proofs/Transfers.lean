import ArrayTrace.Proofs.Scalars

/-!
# Copies of elements

Code that moves elements is a list of transfers: its loops are run over naturals, and each
store copies one element to one place. The transfers are performed one after the other, so
what one of them writes may be what a later one reads. Where this does not happen, they have
the same effect as all at once.

Elements are converted as C converts them. It leaves undefined what integer a float becomes
whose integral part is not a 64-bit integer, whereas an evaluation takes the nearest one; all
other conversions, between floats as in IEEE 754, are those of an evaluation.

## Main definitions

* `convert?` — what C converts an element to, if it does.
* `Transfer` — one element copied, with the conversions on the way.
* `Stmt.transfers?` — the transfers of a statement, in order.
* `run` — the contents of all arrays after a list of transfers.
-/

namespace ArrayTrace

/-! ## Multi-indices of a region -/

namespace Region

/-- The multi-indices of a region in the order of a loop nest. -/
def indices : Region → List (List Nat)
  | [] => [[]]
  | s :: r => (List.range' s.start s.length).flatMap fun i => (indices r).map (i :: ·)

theorem mem_indices {r : Region} {ix : List Nat} :
    ix ∈ indices r ↔ ix.length = r.length ∧ r.contains ix = true := by
  induction r generalizing ix with
  | nil => simp [indices, contains]
  | cons s r ih =>
    rw [indices, List.mem_flatMap]
    constructor
    · rintro ⟨i, hi, hix⟩
      obtain ⟨js, hjs, rfl⟩ := List.mem_map.1 hix
      obtain ⟨hlen, hcontains⟩ := ih.1 hjs
      rw [List.mem_range'_1] at hi
      refine ⟨congrArg Nat.succ hlen, ?_⟩
      simp only [contains_cons, hcontains, Span.contains, Bool.and_true, Bool.and_eq_true,
        decide_eq_true_eq]
      exact ⟨hi.1, by rw [Span.length] at hi; omega⟩
    · rintro ⟨hlen, hcontains⟩
      cases ix with
      | nil => cases hlen
      | cons i js =>
        rw [contains_cons, Bool.and_eq_true] at hcontains
        refine ⟨i, ?_, List.mem_map_of_mem (ih.2 ⟨Nat.succ.inj hlen, hcontains.2⟩)⟩
        simp only [Span.contains, Bool.and_eq_true, decide_eq_true_eq] at hcontains
        rw [List.mem_range'_1, Span.length]
        omega

theorem nodup_indices (r : Region) : (indices r).Nodup := by
  induction r with
  | nil => exact List.nodup_singleton []
  | cons s r ih =>
    rw [indices, List.nodup_flatMap]
    refine ⟨fun i _ => ih.map fun a b h => (List.cons.inj h).2, ?_⟩
    have hnodup : (List.range' s.start s.length).Nodup := List.nodup_range'
    refine hnodup.imp fun {i j} hne => ?_
    intro ix hi hj
    obtain ⟨a, -, rfl⟩ := List.mem_map.1 hi
    obtain ⟨b, -, hb⟩ := List.mem_map.1 hj
    exact hne (List.cons.inj hb).1.symm

theorem mem_indices_full {s : Shape} {ix : List Nat} : ix ∈ indices (full s) ↔ s.InBounds ix := by
  have hrank : (full s).length = s.length := List.length_map _
  rw [mem_indices, hrank]
  exact ⟨fun h => .of_contains_full h.1 h.2, fun h => ⟨h.length_eq, contains_full h⟩⟩

end Region

namespace C

/-! ## Conversions -/

/-- The integer that C converts a number to: its integral part, if it has one in range. -/
def truncated? (x : Float) : Option Int64 :=
  (integralPart? x.toModel.unpack).bind fun n =>
    if Int64.minValue.toInt ≤ n ∧ n ≤ Int64.maxValue.toInt then some (.ofInt n) else none

/-- What C converts an element to, if this is defined. A binary32 number has the integral part
of the binary64 number with its value. -/
def convert? : (src dst : DType) → src.Elem → Option dst.Elem
  | .f64, .i64, x => truncated? x
  | .f32, .i64, x => truncated? (widen x)
  | src, dst, x => some (DType.convert src dst x)

/-- Where C truncates a number, saturating at the bounds has no effect. -/
theorem eq_saturated_of_truncated? {x : Float} {i : Int64} (h : truncated? x = some i) :
    i = saturated x := by
  obtain ⟨n, hn, h⟩ := Option.bind_eq_some_iff.1 h
  split at h
  · rename_i hrange
    cases h
    have hclamp : Int64.ofIntClamp n = .ofInt n := by
      rw [Int64.ofIntClamp, dif_pos hrange.1, dif_pos hrange.2]
      rfl
    rw [saturated]
    split
    · rename_i hx
      rw [hx] at hn
      cases hn
    · rename_i hx
      rw [hx] at hn
      cases hn
    · rw [hn, Option.getD_some, hclamp]
  · cases h

theorem convert?_eq_some {src dst : DType} {x : src.Elem} {y : dst.Elem}
    (h : convert? src dst x = some y) : DType.convert src dst x = y := by
  rw [convert?.eq_def] at h
  split at h
  · exact (eq_saturated_of_truncated? h).symm
  · exact (eq_saturated_of_truncated? h).symm
  · exact Option.some.inj h

/-- Only from floats to integers are conversions undefined. -/
theorem convert?_of_not_truncates {src dst : DType} (h : src.isFloat = true → dst ≠ .i64)
    (x : src.Elem) : convert? src dst x = some (DType.convert src dst x) := by
  cases src <;> cases dst <;> first | rfl | exact absurd rfl (h rfl)

end C

/-- What C converts an element to, if this is defined. -/
def Scalar.to? (x : Scalar) (d : DType) : Option Scalar :=
  (C.convert? x.dtype d x.value).map (Scalar.mk d)

namespace Scalar
variable {x y : Scalar} {d : DType}

/-- A conversion that C defines is that of an evaluation. -/
theorem to_of_to? (h : x.to? d = some y) : x.to d = y := by
  obtain ⟨v, hv, rfl⟩ := Option.map_eq_some_iff.1 h
  exact congrArg (Scalar.mk d) (C.convert?_eq_some hv)

theorem to?_of_not_truncates (h : x.dtype.isFloat = true → d ≠ .i64) : x.to? d = some (x.to d) := by
  rw [to?, C.convert?_of_not_truncates h]
  rfl

end Scalar

namespace C

/-! ## Transfers -/

/-- One element copied from a position of an array to a place in another, and the types that
it is converted to on the way. -/
structure Transfer where
  target : Buffer
  place : Nat
  source : Buffer
  origin : Nat
  casts : List DType
deriving DecidableEq

/-- The element that an expression reads, and the types that it is converted to. -/
def Expr.origin? (σ : Names) : Expr → Option (Buffer × Nat × List DType)
  | index a i => do return (← a.buffer? σ, ← i.value? σ, [])
  | paren e => e.origin? σ
  | cast d e => do
    let (b, k, ds) ← e.origin? σ
    return (b, k, ds ++ [d])
  | bin .ne e (num 0) => do
    let (b, k, ds) ← e.origin? σ
    return (b, k, ds ++ [.bool])
  | _ => none

/-- The transfers of a statement that does nothing else, for every value of every counter. -/
def Stmt.transfers? (σ : Names) : Stmt → Option (List Transfer)
  | skip | comment _ => some []
  | seq s₁ s₂ => do return (← s₁.transfers? σ) ++ (← s₂.transfers? (s₁.after σ))
  | store (.index a i) v => do
    let (source, origin, casts) ← v.origin? σ
    return [⟨← a.buffer? σ, ← i.value? σ, source, origin, casts⟩]
  | loop l s | loopLine l s => do
    let ts ← (List.range' l.start (l.stop - l.start)).mapM fun k =>
      s.transfers? (Function.update σ l.var (some (.counter k)))
    return ts.flatten
  | block s => s.transfers? σ
  | _ => none

/-- The elements of all arrays. -/
abbrev Contents := Buffer → Nat → Option Scalar

variable {σ σ' : Names} {μ : Contents} {t : Transfer} {ts : List Transfer} {b : Buffer} {k : Nat}

namespace Transfer

/-- The element that is written, if its conversion is defined. -/
def value? (t : Transfer) (μ : Contents) : Option Scalar :=
  (μ t.source t.origin).bind fun x => t.casts.foldlM Scalar.to? x

/-- The contents after a transfer. -/
def perform (μ : Contents) (t : Transfer) : Contents :=
  Function.update μ t.target (Function.update (μ t.target) t.place (t.value? μ))

theorem perform_self : t.perform μ t.target t.place = t.value? μ := by
  rw [perform, Function.update_self, Function.update_self]

theorem perform_of_ne (h : b ≠ t.target ∨ k ≠ t.place) : t.perform μ b k = μ b k := by
  rw [perform]
  by_cases hb : b = t.target
  · subst hb
    rw [Function.update_self, Function.update_of_ne (h.resolve_left (not_not.2 rfl))]
  · rw [Function.update_of_ne hb]

end Transfer

/-- The contents after transfers, one after the other. -/
def run (μ : Contents) (ts : List Transfer) : Contents := ts.foldl Transfer.perform μ

/-- What no transfer writes stays as it is. -/
theorem run_of_ne (h : ∀ t ∈ ts, b ≠ t.target ∨ k ≠ t.place) : run μ ts b k = μ b k := by
  induction ts generalizing μ with
  | nil => rfl
  | cons t ts ih =>
    obtain ⟨ht, hts⟩ := List.forall_mem_cons.1 h
    exact (ih hts).trans (Transfer.perform_of_ne ht)

/-- Transfers to different places, none of which writes what another one reads. -/
structure Undisturbed (ts : List Transfer) : Prop where
  nodup : (ts.map fun t => (t.target, t.place)).Nodup
  eq_of_reads : ∀ t ∈ ts, ∀ u ∈ ts, u.target = t.source → u.place = t.origin → u = t

/-- Undisturbed transfers write what was there to read in the beginning. -/
theorem Undisturbed.run_eq (h : Undisturbed ts) (ht : t ∈ ts) :
    run μ ts t.target t.place = t.value? μ := by
  induction ts generalizing μ with
  | nil => cases ht
  | cons u ts ih =>
    obtain ⟨hu, hnodup⟩ := List.nodup_cons.1 h.nodup
    have hapart : ∀ v ∈ ts, u.target ≠ v.target ∨ u.place ≠ v.place := by
      intro v hv
      by_contra hsame
      rw [not_or, not_not, not_not] at hsame
      exact hu (List.mem_map.2 ⟨v, hv, Prod.ext hsame.1.symm hsame.2.symm⟩)
    rcases List.mem_cons.1 ht with rfl | ht
    · exact (run_of_ne hapart).trans Transfer.perform_self
    · have hread : u.perform μ t.source t.origin = μ t.source t.origin := by
        refine Transfer.perform_of_ne ?_
        by_contra hsame
        rw [not_or, not_not, not_not] at hsame
        obtain rfl := h.eq_of_reads t (List.mem_cons_of_mem _ ht) u List.mem_cons_self
          hsame.1.symm hsame.2.symm
        exact (hapart u ht).elim (· rfl) (· rfl)
      have hrest : Undisturbed ts := ⟨hnodup, fun v hv w hw =>
        h.eq_of_reads v (List.mem_cons_of_mem _ hv) w (List.mem_cons_of_mem _ hw)⟩
      have hrun := ih hrest ht (μ := u.perform μ)
      rwa [Transfer.value?, hread] at hrun

/-! ## Transfers of composed code -/

theorem Expr.origin?_index {a i : Expr} (ha : a.buffer? σ = some b) (hi : i.value? σ = some k) :
    (index a i).origin? σ = some (b, k, []) := by
  rw [origin?, ha, hi]
  rfl

/-- The conversions between two types. -/
def casts (src dst : DType) : List DType := if src = dst then [] else [dst]

theorem foldlM_casts {x : Scalar} {src : DType} (hx : x.dtype = src) (dst : DType) :
    (casts src dst).foldlM Scalar.to? x = x.to? dst := by
  subst hx
  rw [casts]
  split
  · rename_i hsame
    have hnot : x.dtype.isFloat = true → dst ≠ .i64 := by
      rintro hfloat rfl
      rw [hsame] at hfloat
      cases hfloat
    rw [Scalar.to?_of_not_truncates hnot, ← hsame, Scalar.to_self]
    rfl
  · rw [List.foldlM_cons]
    cases x.to? dst <;> rfl

theorem Expr.origin?_convert {e : Expr} (h : e.origin? σ = some (b, k, [])) (src dst : DType) :
    (e.convert src dst).origin? σ = some (b, k, casts src dst) := by
  rw [convert, casts]
  split
  · exact h
  · split
    · rename_i hbool
      subst hbool
      simp [group, origin?, h]
    · simp [origin?, h]

namespace Stmt

theorem transfers?_store {p i v : Expr} {source : Buffer} {origin : Nat} {ds : List DType}
    (hp : p.buffer? σ = some b) (hi : i.value? σ = some k)
    (hv : v.origin? σ = some (source, origin, ds)) :
    (store (.index p i) v).transfers? σ = some [⟨b, k, source, origin, ds⟩] := by
  simp [transfers?, hp, hi, hv]

theorem transfers?_comment (text : String) (s : Stmt) :
    (seq (comment text) s).transfers? σ = s.transfers? σ := by
  cases h : s.transfers? σ <;> simp [transfers?, after, h]

theorem transfers?_all_cons {s : Stmt} {ss : List Stmt} {ts' : List Transfer}
    (hs : s.transfers? σ = some ts) (hafter : s.after σ = σ)
    (hss : (all ss).transfers? σ = some ts') :
    (all (s :: ss)).transfers? σ = some (ts ++ ts') := by
  rw [all] at hss
  rw [all, List.foldr_cons, transfers?, hs, hafter, hss]
  rfl

theorem transfers?_loop {l : Loop} {s : Stmt} {f : Nat → List Transfer}
    (h : ∀ k, l.start ≤ k → k < l.stop →
      s.transfers? (Function.update σ l.var (some (.counter k))) = some (f k)) :
    (loop l s).transfers? σ = some ((List.range' l.start (l.stop - l.start)).flatMap f) := by
  have hmapM : (List.range' l.start (l.stop - l.start)).mapM (fun k =>
      s.transfers? (Function.update σ l.var (some (.counter k)))) =
        some ((List.range' l.start (l.stop - l.start)).map f) := by
    refine mapM_eq_some.2 (List.forall₂_map_right_iff.2 (List.forall₂_same.2 fun k hk => ?_))
    rw [List.mem_range'_1] at hk
    exact h k hk.1 (by omega)
  rw [transfers?, hmapM]
  rfl

theorem transfers?_loopLine {l : Loop} {s : Stmt} {f : Nat → List Transfer}
    (h : ∀ k, l.start ≤ k → k < l.stop →
      s.transfers? (Function.update σ l.var (some (.counter k))) = some (f k)) :
    (loopLine l s).transfers? σ = some ((List.range' l.start (l.stop - l.start)).flatMap f) :=
  transfers?_loop h

end Stmt

end C

namespace Emit
open C
variable {σ : Names} {body : Stmt}

private theorem transfers?_nest_from {r : Region} {a : Nat} {f : List Nat → List Transfer}
    (h : ∀ σ' ix, (∀ x, (∀ j, a ≤ j → x ≠ counter j) → σ' x = σ x) →
      r.contains ix = true → ix.length = r.length →
      Denote σ' ((List.range' a r.length).map fun axis => .var (counter axis)) ix →
      body.transfers? σ' = some (f ix)) :
    (Stmt.nest ((r.zipIdx a).map fun (s, axis) => ⟨counter axis, s.start, s.stop⟩)
      body).transfers? σ = some (r.indices.flatMap f) := by
  induction r generalizing a σ f with
  | nil => simpa [Region.indices, Stmt.nest] using h σ [] (fun _ _ => rfl) rfl rfl .nil
  | cons s r ih =>
    have hloop : ∀ k, s.start ≤ k → k < s.stop →
        (Stmt.nest ((r.zipIdx (a + 1)).map fun (s, axis) => ⟨counter axis, s.start, s.stop⟩)
          body).transfers? (Function.update σ (counter a) (some (.counter k))) =
            some ((Region.indices r).flatMap fun ix => f (k :: ix)) := by
      intro k hstart hstop
      refine ih fun σ' ix hkeeps hix hlen hdenote => ?_
      have hcounter : σ' (counter a) = some (.counter k) := by
        rw [hkeeps _ fun j hj he => by have := counter_injective he; omega, Function.update_self]
      refine h σ' (k :: ix) (fun x hx => ?_) ?_ (congrArg Nat.succ hlen) ?_
      · rw [hkeeps x fun j hj => hx j (by omega), Function.update_of_ne (hx a (Nat.le_refl a))]
      · simpa [Span.contains, hix] using And.intro hstart hstop
      · rw [List.length_cons, List.range'_succ, List.map_cons]
        exact .cons ⟨rfl, by simp [Expr.value?, hcounter]⟩ hdenote
    have hindices : (Region.indices (s :: r)).flatMap f =
        (List.range' s.start (s.stop - s.start)).flatMap fun k =>
          (Region.indices r).flatMap fun ix => f (k :: ix) := by
      simp [Region.indices, List.flatMap_assoc, List.flatMap_map, Span.length]
    rw [hindices]
    exact Stmt.transfers?_loop (l := ⟨counter a, s.start, s.stop⟩) hloop

/-- A nest around a store performs one transfer for each multi-index of its region. -/
theorem transfers?_nest {r : Region} {f : List Nat → Transfer}
    (h : ∀ σ' ix, Keeps σ σ' → ix ∈ Region.indices r → Denote σ' (counters r.length) ix →
      body.transfers? σ' = some [f ix]) :
    (Stmt.nest (regionLoops r) body).transfers? σ = some ((Region.indices r).map f) := by
  rw [List.map_eq_flatMap]
  refine transfers?_nest_from fun σ' ix hkeeps hix hlen hdenote => h σ' ix
    (fun x hx => hkeeps x fun j _ he => not_reserved_counter j (he ▸ hx))
    (Region.mem_indices.2 ⟨hlen, hix⟩) ?_
  rwa [counters, List.range_eq_range']

end Emit
end ArrayTrace
