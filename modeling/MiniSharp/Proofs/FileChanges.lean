import Mathlib.Data.List.Induction
import Mathlib.Data.List.TakeWhile
import MiniSharp.Proofs.Outcome
import MiniSharp.Proofs.PathPlaces

namespace MiniSharp.FileTree

def Sound (t : FileTree) : Prop :=
  ∀ p name, (t.get? (p ++ [name])).isSome → t.get? p = some .directory

theorem get?_root (t : FileTree) : t.get? [] = some .directory := if_pos rfl

theorem get?_of_ne (t : FileTree) {p : Place} (hp : p ≠ []) : t.get? p = t.entries.lookup p := if_neg hp

theorem Sound.above {t : FileTree} (ht : t.Sound) {p q : Place} (hq : q ≠ [])
    (h : (t.get? (p ++ q)).isSome) : t.get? p = some .directory := by
  induction q using List.reverseRecOn with
  | nil => exact absurd rfl hq
  | append_singleton q name ih =>
    rw [← List.append_assoc] at h
    have hparent := ht _ _ h
    by_cases hq : q = []
    · rwa [hq, List.append_nil] at hparent
    · exact ih hq (by rw [hparent]; rfl)

theorem Sound.below {t : FileTree} (ht : t.Sound) {p : Place} (hp : t.get? p ≠ some .directory)
    {q : Place} (hq : q ≠ []) : t.get? (p ++ q) = none := by
  by_contra h
  exact hp (ht.above hq (Option.isSome_iff_ne_none.mpr h))

section Lookup

variable {entries : List (Place × FileNode)} {p q : Place} {n : FileNode}

theorem lookup_cons_self : List.lookup p ((p, n) :: entries) = some n := by
  rw [List.lookup_cons, beq_self_eq_true]

theorem lookup_cons_of_ne (h : q ≠ p) : List.lookup q ((p, n) :: entries) = entries.lookup q := by
  rw [List.lookup_cons, beq_false_of_ne h]

theorem isSome_lookup : (entries.lookup p).isSome ↔ ∃ n, (p, n) ∈ entries := by
  induction entries with
  | nil => simp
  | cons e entries ih =>
    obtain ⟨q, n⟩ := e
    by_cases h : p = q
    · rw [h, lookup_cons_self]
      exact iff_of_true rfl ⟨n, List.mem_cons_self⟩
    · rw [lookup_cons_of_ne h, ih]
      simp [h]

theorem lookup_filter (keep : Place → Bool) :
    (entries.filter fun e => keep e.1).lookup q = if keep q then entries.lookup q else none := by
  induction entries with
  | nil => simp
  | cons e entries ih =>
    obtain ⟨p, n⟩ := e
    rw [List.filter_cons]
    by_cases hp : keep p
    · rw [if_pos hp]
      by_cases h : q = p
      · rw [h, lookup_cons_self, lookup_cons_self, if_pos hp]
      · rw [lookup_cons_of_ne h, lookup_cons_of_ne h, ih]
    · rw [if_neg hp, ih]
      by_cases h : q = p
      · rw [h, if_neg hp, if_neg hp]
      · rw [lookup_cons_of_ne h]

end Lookup

theorem get?_insert (t : FileTree) {p : Place} (hp : p ≠ []) (n : FileNode) (q : Place) :
    (t.insert p n).get? q = if q = p then some n else t.get? q := by
  by_cases h : q = p
  · rw [h, get?_of_ne _ hp, insert, lookup_cons_self, if_pos rfl]
  · rw [if_neg h]
    by_cases hq : q = []
    · rw [hq, get?_root, get?_root]
    · rw [get?_of_ne _ hq, get?_of_ne _ hq, insert, lookup_cons_of_ne h,
        lookup_filter fun q => decide (q ≠ p), if_pos (decide_eq_true h)]

theorem get?_remove (t : FileTree) {p : Place} (hp : p ≠ []) (q : Place) :
    (t.remove p).get? q = if p <+: q then none else t.get? q := by
  by_cases hq : q = []
  · rw [hq, get?_root, get?_root, if_neg fun h => hp (List.prefix_nil.mp h)]
  · rw [get?_of_ne _ hq, get?_of_ne _ hq, remove, lookup_filter fun q => !p.isPrefixOf q]
    by_cases h : p <+: q
    · rw [if_pos h, List.isPrefixOf_iff_prefix.mpr h]
      rfl
    · rw [if_neg h, eq_false_of_ne_true fun hp => h (List.isPrefixOf_iff_prefix.mp hp)]
      rfl

theorem mem_children {t : FileTree} {p : Place} {name : Text} :
    name ∈ t.children p ↔ (t.get? (p ++ [name])).isSome := by
  rw [get?_of_ne t (by simp), isSome_lookup, children, List.mem_filterMap]
  constructor
  · rintro ⟨⟨q, n⟩, hmem, h⟩
    rw [Option.ite_none_right_eq_some] at h
    obtain ⟨rfl, hlast⟩ := h
    rw [List.dropLast_append_getLast? _ hlast]
    exact ⟨n, hmem⟩
  · rintro ⟨n, hmem⟩
    exact ⟨_, hmem, by simp⟩

theorem sound_of_entries {t : FileTree} (h : ∀ e ∈ t.entries, t.get? e.1.dropLast = some .directory) :
    t.Sound := by
  intro p name hname
  rw [get?_of_ne t (by simp), isSome_lookup] at hname
  obtain ⟨n, hn⟩ := hname
  simpa using h _ hn

theorem mem_way {p q : Place} : q ∈ way p ↔ q ≠ [] ∧ q <+: p := by
  rw [way, List.mem_map]
  constructor
  · rintro ⟨n, hn, rfl⟩
    rw [List.mem_range] at hn
    exact ⟨fun h => by simp_all, List.take_prefix ..⟩
  · rintro ⟨hq, habove⟩
    have hlength : 0 < q.length := List.length_pos_iff.mpr hq
    have := habove.length_le
    refine ⟨q.length - 1, List.mem_range.mpr (by omega), ?_⟩
    rw [Nat.sub_add_cancel hlength, ← List.prefix_iff_eq_take.mp habove]

def reached (t : FileTree) (p : Place) : List Place :=
  (way p).takeWhile fun q => (t.obstacle q).isNone

theorem mem_way_of_reached {t : FileTree} {p q : Place} (h : q ∈ t.reached p) : q ∈ way p :=
  List.takeWhile_subset _ h

theorem get?_foldl_insert (t : FileTree) {qs : List Place} (hqs : [] ∉ qs) (q : Place) :
    (qs.foldl (fun t q => if (t.get? q).isSome then t else t.insert q .directory) t).get? q =
      if q ∈ qs ∧ t.get? q = none then some .directory else t.get? q := by
  induction qs generalizing t with
  | nil => simp
  | cons r qs ih =>
    rw [List.mem_cons, not_or] at hqs
    have hstep : (if (t.get? r).isSome then t else t.insert r .directory).get? q =
        if q = r ∧ t.get? q = none then some .directory else t.get? q := by
      by_cases hr : (t.get? r).isSome
      · rw [if_pos hr, if_neg]
        rintro ⟨rfl, hnone⟩
        rw [hnone] at hr
        cases hr
      · rw [if_neg hr, get?_insert t (Ne.symm hqs.1)]
        rw [Option.not_isSome_iff_eq_none] at hr
        by_cases h : q = r
        · rw [if_pos h, if_pos ⟨h, h ▸ hr⟩]
        · rw [if_neg h, if_neg fun hq => h hq.1]
    rw [List.foldl_cons, ih _ hqs.2, hstep]
    by_cases h : q = r ∧ t.get? q = none
    · rw [if_pos h, if_neg (by simp), if_pos ⟨h.1 ▸ List.mem_cons_self, h.2⟩]
    · rw [if_neg h]
      refine if_congr ?_ rfl rfl
      constructor
      · rintro ⟨hmem, hnone⟩
        exact ⟨List.mem_cons_of_mem _ hmem, hnone⟩
      · rintro ⟨hmem, hnone⟩
        exact ⟨(List.mem_cons.mp hmem).resolve_left fun hr => h ⟨hr, hnone⟩, hnone⟩

theorem get?_makeDirectories (t : FileTree) (p q : Place) : (t.makeDirectories p).get? q =
    if q ∈ t.reached p ∧ t.get? q = none then some .directory else t.get? q :=
  get?_foldl_insert t (fun h => (mem_way.mp (mem_way_of_reached h)).1 rfl) q

theorem get?_makeDirectories_self {t : FileTree} {p : Place} (hp : p ≠ []) (h : t.obstacle? p = none) :
    (t.makeDirectories p).get? p = some .directory := by
  have hnone : ∀ q ∈ way p, t.obstacle q = none := by
    intro q hq
    simpa using List.findSome?_eq_none_iff.mp h q hq
  have hself : p ∈ way p := mem_way.mpr ⟨hp, List.prefix_refl p⟩
  have hreached : p ∈ t.reached p := by
    rwa [reached, List.takeWhile_eq_self_iff.mpr fun q hq => by rw [hnone q hq]; rfl]
  rw [get?_makeDirectories]
  by_cases hget : t.get? p = none
  · rw [if_pos ⟨hreached, hget⟩]
  · rw [if_neg fun h => hget h.2]
    have := hnone p hself
    rw [obstacle] at this
    split at this
    · assumption
    · cases this
    · next h => exact absurd h hget

theorem entered_eq_ok {t : FileTree} {p : Place} :
    t.entered p = .ok () ↔ t.get? p = some .directory := by
  rw [entered]
  split <;> simp_all

theorem entered_eq_missing {t : FileTree} {p : Place} :
    t.entered p = .error .missing ↔ t.get? p = none := by
  rw [entered]
  split <;> simp_all

theorem walk_cons (t : FileTree) (p : Place) (part : Text) (rest : List Text) :
    t.walk p (part :: rest) = t.entered p >>= fun _ =>
      if Path.Skips part then t.walk p rest
      else if part = Path.parent then t.walk p.dropLast rest
      else if nameLimit < part.length then .error .longName
      else t.walk (p ++ [part]) rest := rfl

theorem walk_eq_ok {t : FileTree} {p q : Place} {parts : List Text} (h : t.walk p parts = .ok q) :
    q = Path.follow p parts := by
  induction parts generalizing p with
  | nil => exact (Except.ok.inj h).symm
  | cons part parts ih =>
    obtain ⟨-, -, h⟩ := bind_eq_ok.mp (walk_cons t p part parts ▸ h)
    split at h
    · next hskip => rw [ih h, Path.follow_skip _ _ hskip]
    · next hskip =>
      split at h
      · next hparent => rw [ih h, Path.follow_parent _ _ hskip hparent]
      · next hparent =>
        split at h
        · cases h
        · rw [ih h, Path.follow_down _ _ hskip hparent]

theorem walk_eq_missing {t : FileTree} (ht : t.Sound) {p : Place} {names : List Text}
    (hnames : ∀ name ∈ names, Path.IsName name) (h : t.walk p names = .error .missing) :
    t.get? (p ++ names) = none := by
  induction names generalizing p with
  | nil => cases h
  | cons name names ih =>
    obtain ⟨hname, hrest⟩ := List.forall_mem_cons.mp hnames
    rw [walk_cons, if_neg hname.not_skips, if_neg hname.notParent] at h
    cases hentered : t.entered p with
    | error cause =>
      rw [hentered, error_bind, Except.error.injEq] at h
      have hp := entered_eq_missing.mp (h ▸ hentered)
      exact ht.below (by simp [hp]) (List.cons_ne_nil _ _)
    | ok =>
      rw [hentered, ok_bind] at h
      split at h
      · cases h
      · rw [List.append_cons]
        exact ih hrest h

open World (pathOf)

theorem locate_eq_ok {t : FileTree} {directory p : Place} {path : Text}
    (h : t.locate directory path = .ok p) : p = Path.destination directory path := by
  rw [locate] at h
  split at h
  · cases h
  · split at h
    · cases h
    · split at h
      · cases h
      · exact walk_eq_ok h

theorem locate_eq_missing {t : FileTree} (ht : t.Sound) {directory p : Place}
    (hp : ∀ name ∈ p, Path.IsName name) (h : t.locate directory (pathOf p) = .error .missing) :
    t.get? p = none := by
  have hrooted := Path.isRooted_pathOf p []
  rw [List.append_nil] at hrooted
  rw [locate, if_neg (Path.pathOf_ne_nil p), if_pos hrooted] at h
  split at h
  · cases h
  · split at h
    · cases h
    · have hsplit : Path.split (pathOf p) = [] :: Path.split (Text.join [Path.slash] p) := if_pos rfl
      rw [hsplit, walk_cons, entered_eq_ok.mpr t.get?_root, ok_bind, if_pos (.inl rfl)] at h
      cases p with
      | nil =>
        change t.walk [] [[]] = _ at h
        rw [walk_cons, entered_eq_ok.mpr t.get?_root, ok_bind, if_pos (.inl rfl)] at h
        cases h
      | cons name p =>
        rw [Path.split_join (List.cons_ne_nil _ _) fun name h => (hp name h).unslashed] at h
        exact walk_eq_missing ht hp h

theorem list_eq_ok {t : FileTree} {directory : Place} {path : Text} {names : List Text}
    (h : t.list directory path = .ok names) :
    t.locate directory path = .ok (Path.destination directory path) ∧
      t.get? (Path.destination directory path) = some .directory ∧
      names = t.children (Path.destination directory path) := by
  rw [list] at h
  split at h
  · cases h
  · next p hlocate =>
    obtain rfl := locate_eq_ok hlocate
    split at h
    · cases h
    · next hentered => exact ⟨hlocate, entered_eq_ok.mp hentered, (Except.ok.inj h).symm⟩

theorem list_eq_missing {t : FileTree} (ht : t.Sound) {directory p : Place}
    (hp : ∀ name ∈ p, Path.IsName name) {e : FileError} (h : t.list directory (pathOf p) = .error e)
    (hcause : e.cause = .missing) : t.get? p = none := by
  rw [list] at h
  split at h
  · next cause hlocate =>
    cases h
    obtain rfl : cause = .missing := hcause
    exact locate_eq_missing ht hp hlocate
  · next q hlocate =>
    obtain rfl : q = p := (locate_eq_ok hlocate).trans (Path.destination_pathOf directory hp)
    split at h
    · next cause hentered =>
      cases h
      obtain rfl : cause = .missing := hcause
      exact entered_eq_missing.mp hentered
    · cases h

theorem write_eq_ok {t t' : FileTree} {directory : Place} {path content : Text}
    (h : t.write directory path content = .ok t') :
    t' = t.insert (Path.destination directory path) (.file content) := by
  dsimp only [write] at h
  split at h
  · cases h
  · next p hlocate =>
    have hinsert {e : FileError} (h : (if Text.dropTrailing (· == Path.slash) path = path then
        .ok (t.insert p (.file content)) else .error e) = Except.ok t') :
        t' = t.insert (Path.destination directory path) (.file content) := by
      split at h
      · next hnamed =>
        rw [hnamed, ite_self] at hlocate
        rw [← locate_eq_ok hlocate, Except.ok.inj h]
      · cases h
    split at h
    · cases h
    · cases h
    · exact hinsert h
    · exact hinsert h

end MiniSharp.FileTree
