import Mathlib.Data.List.Forall2
import MiniSharp.Datum.Match

namespace MiniSharp.Datum

def isList : Datum → Bool
  | list _ => true
  | _ => false

mutual

inductive Fits : Datum → Datum → Prop
  | ellipsis (d : Datum) : Fits .ellipsis d
  | same {d : Datum} : d.isList = false → Fits d d
  | list {ps : List Datum} {segments : List (List Datum)} : FitSegments ps segments →
      Fits (.list ps) (.list segments.flatten)

/-- The segments belong to the patterns in order: an ellipsis takes any run, and every other pattern
one item that fits it. -/
inductive FitSegments : List Datum → List (List Datum) → Prop
  | nil : FitSegments [] []
  | run {ps : List Datum} {segments : List (List Datum)} (segment : List Datum) :
      FitSegments ps segments → FitSegments (.ellipsis :: ps) (segment :: segments)
  | item {p d : Datum} {ps : List Datum} {segments : List (List Datum)} : p ≠ .ellipsis →
      Fits p d → FitSegments ps segments → FitSegments (p :: ps) ([d] :: segments)

end

def FitsCut (ps items : List Datum) : Prop :=
  ∃ segments, FitSegments ps segments ∧ segments.flatten = items

variable {p d : Datum} {ps items : List Datum}

theorem fits_list_iff : Fits (.list ps) d ↔ ∃ items, d = .list items ∧ FitsCut ps items := by
  constructor
  · intro h
    cases h with
    | same hlist => cases hlist
    | list hsegments => exact ⟨_, rfl, _, hsegments, rfl⟩
  · rintro ⟨_, rfl, segments, hsegments, rfl⟩
    exact .list hsegments

theorem fits_same_iff (hp : p ≠ .ellipsis) (hlist : p.isList = false) : Fits p d ↔ p = d := by
  constructor
  · intro h
    cases h with
    | ellipsis => exact absurd rfl hp
    | same => rfl
    | list => cases hlist
  · rintro rfl
    exact .same hlist

theorem fitsCut_nil_iff : FitsCut [] items ↔ items = [] := by
  constructor
  · rintro ⟨segments, hsegments, rfl⟩
    cases hsegments
    rfl
  · rintro rfl
    exact ⟨[], .nil, rfl⟩

theorem fitsCut_ellipsis_iff :
    FitsCut (.ellipsis :: ps) items ↔ ∃ run rest, items = run ++ rest ∧ FitsCut ps rest := by
  constructor
  · rintro ⟨segments, hsegments, rfl⟩
    cases hsegments with
    | run segment hrest => exact ⟨segment, _, List.flatten_cons, _, hrest, rfl⟩
    | item hne => exact absurd rfl hne
  · rintro ⟨run, _, rfl, segments, hsegments, rfl⟩
    exact ⟨run :: segments, .run run hsegments, List.flatten_cons⟩

theorem fitsCut_cons_iff (hp : p ≠ .ellipsis) :
    FitsCut (p :: ps) items ↔ ∃ d rest, items = d :: rest ∧ Fits p d ∧ FitsCut ps rest := by
  constructor
  · rintro ⟨segments, hsegments, rfl⟩
    cases hsegments with
    | run => exact absurd rfl hp
    | item _ hd hrest => exact ⟨_, _, rfl, hd, _, hrest, rfl⟩
  · rintro ⟨d, _, rfl, hd, segments, hsegments, rfl⟩
    exact ⟨[d] :: segments, .item hp hd hsegments, rfl⟩

theorem fits_eq_same (hp : p ≠ .ellipsis) (hlist : p.isList = false) :
    p.fits d = true ↔ p = d := by
  cases p with
  | ellipsis => exact absurd rfl hp
  | list => cases hlist
  | symbol | string | integer | other => cases d <;> simp [fits]

theorem fits_eq_list : (list ps).fits d = true ↔ ∃ items, d = .list items ∧ fitsAll ps items = true := by
  cases d <;> simp [fits]

theorem fitsAll_nil : fitsAll [] items = true ↔ items = [] := by
  rw [fitsAll, List.isEmpty_iff]

theorem fitsAll_ellipsis : fitsAll (.ellipsis :: ps) items = true ↔
    ∃ run rest, items = run ++ rest ∧ fitsAll ps rest = true := by
  rw [fitsAll, List.any_eq_true]
  constructor
  · rintro ⟨n, -, h⟩
    exact ⟨items.take n, items.drop n, (List.take_append_drop n items).symm, h⟩
  · rintro ⟨run, rest, rfl, h⟩
    -- The run may be all of the items, so the search has to try one length more than there are items.
    refine ⟨run.length, List.mem_range.mpr ?_, ?_⟩
    · rw [List.length_append]
      omega
    · rw [List.drop_left]
      exact h

theorem fitsAll_cons (hp : p ≠ .ellipsis) : fitsAll (p :: ps) items = true ↔
    ∃ d rest, items = d :: rest ∧ p.fits d = true ∧ fitsAll ps rest = true := by
  cases p with
  | ellipsis => exact absurd rfl hp
  | symbol | string | integer | list | other => cases items <;> simp [fitsAll]

mutual

theorem fits_iff (p d : Datum) : p.fits d = true ↔ Fits p d :=
  match p with
  | .ellipsis => iff_of_true (by rw [fits]) (.ellipsis d)
  | .symbol _ | .string _ | .integer _ | .other _ _ =>
    (fits_eq_same (by simp) rfl).trans (fits_same_iff (by simp) rfl).symm
  | .list ps => by simp only [fits_eq_list, fits_list_iff, fitsAll_iff ps]

theorem fitsAll_iff (ps items : List Datum) : fitsAll ps items = true ↔ FitsCut ps items :=
  match ps with
  | [] => fitsAll_nil.trans fitsCut_nil_iff.symm
  | p :: ps => by
    by_cases hp : p = .ellipsis
    · subst hp
      simp only [fitsAll_ellipsis, fitsCut_ellipsis_iff, fitsAll_iff ps]
    · simp only [fitsAll_cons hp, fitsCut_cons_iff hp, fits_iff p, fitsAll_iff ps]

end

def SegmentFits (p : Datum) (segment : List Datum) : Prop :=
  p = .ellipsis ∨ ∃ d, segment = [d] ∧ Fits p d

theorem fitSegments_iff {segments : List (List Datum)} :
    FitSegments ps segments ↔ List.Forall₂ SegmentFits ps segments := by
  constructor
  · intro h
    induction ps generalizing segments with
    | nil =>
      cases h
      exact .nil
    | cons p ps ih =>
      cases h with
      | run segment hrest => exact .cons (.inl rfl) (ih hrest)
      | item _ hd hrest => exact .cons (.inr ⟨_, rfl, hd⟩) (ih hrest)
  · intro h
    induction h with
    | nil => exact .nil
    | @cons p segment _ _ hsegment _ ih =>
      by_cases hp : p = .ellipsis
      · subst hp
        exact .run segment ih
      · obtain ⟨d, rfl, hd⟩ := hsegment.resolve_left hp
        exact .item hp hd ih

/-- The search for a cut decides whether there is one: a pattern fits a datum if it is an ellipsis, if
the two are the same and no lists, or if both are lists and the items of the datum can be cut into one
segment for each item of the pattern. -/
theorem search_decides_cutting (p d : Datum) :
    (p.fits d = true ↔ Fits p d) ∧
    (Fits p d ↔ p = .ellipsis ∨ (p.isList = false ∧ d.isList = false ∧ p = d) ∨
      ∃ ps items segments, p = .list ps ∧ d = .list items ∧ segments.flatten = items ∧
        List.Forall₂ SegmentFits ps segments) := by
  refine ⟨fits_iff p d, ?_⟩
  constructor
  · intro h
    cases h with
    | ellipsis => exact .inl rfl
    | same hlist => exact .inr (.inl ⟨hlist, hlist, rfl⟩)
    | list hsegments => exact .inr (.inr ⟨_, _, _, rfl, rfl, rfl, fitSegments_iff.mp hsegments⟩)
  · rintro (rfl | ⟨hlist, -, rfl⟩ | ⟨ps, _, segments, rfl, rfl, rfl, hsegments⟩)
    · exact .ellipsis d
    · exact .same hlist
    · exact .list (fitSegments_iff.mpr hsegments)

mutual

theorem Fits.refl (d : Datum) : Fits d d :=
  match d with
  | .ellipsis => .ellipsis _
  | .symbol _ | .string _ | .integer _ | .other _ _ => .same rfl
  | .list items => fits_list_iff.mpr ⟨items, rfl, fitsCut_refl items⟩

theorem fitsCut_refl (items : List Datum) : FitsCut items items :=
  match items with
  | [] => fitsCut_nil_iff.mpr rfl
  | d :: rest => by
    by_cases hd : d = .ellipsis
    · subst hd
      exact fitsCut_ellipsis_iff.mpr ⟨[.ellipsis], rest, rfl, fitsCut_refl rest⟩
    · exact (fitsCut_cons_iff hd).mpr ⟨d, rest, rfl, Fits.refl d, fitsCut_refl rest⟩

end

theorem Fits.ne_ellipsis (h : Fits p d) (hp : p ≠ .ellipsis) : d ≠ .ellipsis := by
  cases h with
  | ellipsis => exact absurd rfl hp
  | same => exact hp
  | list => simp

theorem FitsCut.append_inv {ps qs items : List Datum} (h : FitsCut (ps ++ qs) items) :
    ∃ front back, items = front ++ back ∧ FitsCut ps front ∧ FitsCut qs back := by
  induction ps generalizing items with
  | nil => exact ⟨[], items, rfl, fitsCut_nil_iff.mpr rfl, h⟩
  | cons p ps ih =>
    rw [List.cons_append] at h
    by_cases hp : p = .ellipsis
    · subst hp
      obtain ⟨run, _, rfl, hrest⟩ := fitsCut_ellipsis_iff.mp h
      obtain ⟨front, back, rfl, hfront, hback⟩ := ih hrest
      exact ⟨run ++ front, back, (List.append_assoc ..).symm,
        fitsCut_ellipsis_iff.mpr ⟨run, front, rfl, hfront⟩, hback⟩
    · obtain ⟨d, _, rfl, hd, hrest⟩ := (fitsCut_cons_iff hp).mp h
      obtain ⟨front, back, rfl, hfront, hback⟩ := ih hrest
      exact ⟨d :: front, back, rfl, (fitsCut_cons_iff hp).mpr ⟨d, front, rfl, hd, hfront⟩, hback⟩

mutual

theorem Fits.trans {p q r : Datum} (h : Fits p q) (hr : Fits q r) : Fits p r :=
  match h with
  | .ellipsis _ => .ellipsis r
  | .same _ => hr
  | .list hsegments => by
    obtain ⟨items, rfl, hcut⟩ := fits_list_iff.mp hr
    exact fits_list_iff.mpr ⟨items, rfl, hsegments.trans hcut⟩

theorem FitSegments.trans {ps : List Datum} {segments : List (List Datum)} {items : List Datum}
    (h : FitSegments ps segments) (hcut : FitsCut segments.flatten items) : FitsCut ps items :=
  match h with
  | .nil => hcut
  | .run segment hrest => by
    obtain ⟨front, back, rfl, -, hback⟩ := hcut.append_inv
    exact fitsCut_ellipsis_iff.mpr ⟨front, back, rfl, hrest.trans hback⟩
  | .item hp hd hrest => by
    obtain ⟨e, rest, rfl, he, hcut⟩ := (fitsCut_cons_iff (hd.ne_ellipsis hp)).mp hcut
    exact (fitsCut_cons_iff hp).mpr ⟨e, rest, rfl, hd.trans he, hrest.trans hcut⟩

end

/-- Every datum fits itself as a pattern, ellipses included, and what fits an instance of a pattern
fits the pattern. -/
theorem fitting_is_preorder :
    (∀ d : Datum, d.fits d = true) ∧
    ∀ p q r : Datum, p.fits q = true → q.fits r = true → p.fits r = true := by
  simp only [fits_iff]
  exact ⟨Fits.refl, fun _ _ _ => Fits.trans⟩

def anyCall : Datum := .list [.symbol "f", .ellipsis, .list [.ellipsis]]

def someCall : Datum :=
  .list [.symbol "f", .integer "1", .ellipsis, .list [.ellipsis, .symbol "x"]]

def oneCall : Datum :=
  .list [.symbol "f", .integer "1", .string "2", .list [], .list [.list [], .symbol "x"]]

theorem fitting_is_preorder_calls :
    someCall.fits someCall = true ∧ anyCall.fits someCall = true ∧ someCall.fits oneCall = true ∧
      anyCall.fits oneCall = true := by
  have hany : anyCall.fits someCall = true := by decide +kernel
  have hsome : someCall.fits oneCall = true := by decide +kernel
  exact ⟨fitting_is_preorder.1 someCall, hany, hsome, fitting_is_preorder.2 _ _ _ hany hsome⟩

end MiniSharp.Datum
