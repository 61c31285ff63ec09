import Mathlib.Data.List.Basic
import MiniSharp.Files.Host

namespace MiniSharp.Path

structure IsName (t : Text) : Prop where
  nonempty : t ≠ []
  unslashed : slash ∉ t
  notHere : t ≠ here
  notParent : t ≠ parent

def Skips (part : Text) : Prop := part = [] ∨ part = here

instance (part : Text) : Decidable (Skips part) := inferInstanceAs (Decidable (part = [] ∨ part = here))

theorem IsName.not_skips {name : Text} (h : IsName name) : ¬ Skips name :=
  not_or.mpr ⟨h.nonempty, h.notHere⟩

def follow (p : Place) : List Text → Place
  | [] => p
  | part :: rest =>
    if part = [] ∨ part = here then follow p rest
    else if part = parent then follow p.dropLast rest
    else follow (p ++ [part]) rest

section Follow

variable (p : Place) {part : Text} (rest : List Text)

theorem follow_skip (h : Skips part) : follow p (part :: rest) = follow p rest := if_pos h

theorem follow_parent (h : ¬ Skips part) (hparent : part = parent) :
    follow p (part :: rest) = follow p.dropLast rest := (if_neg h).trans (if_pos hparent)

theorem follow_down (h : ¬ Skips part) (hparent : part ≠ parent) :
    follow p (part :: rest) = follow (p ++ [part]) rest := (if_neg h).trans (if_neg hparent)

end Follow

theorem follow_append (p : Place) (parts more : List Text) :
    follow p (parts ++ more) = follow (follow p parts) more := by
  induction parts generalizing p with
  | nil => rfl
  | cons part parts ih =>
    rw [List.cons_append, follow, follow]
    split
    · exact ih p
    · split
      · exact ih _
      · exact ih _

theorem follow_name (p : Place) {name : Text} (h : IsName name) : follow p [name] = p ++ [name] :=
  follow_down p [] h.not_skips h.notParent

theorem follow_names (p : Place) {names : List Text} (h : ∀ name ∈ names, IsName name) :
    follow p names = p ++ names := by
  induction names generalizing p with
  | nil => exact (List.append_nil p).symm
  | cons name names ih =>
    obtain ⟨hname, hnames⟩ := List.forall_mem_cons.mp h
    rw [List.append_cons, ← ih _ hnames, ← follow_name p hname, ← follow_append, List.singleton_append]

theorem isName_follow {p : Place} {parts : List Text} (hp : ∀ name ∈ p, IsName name)
    (hparts : ∀ part ∈ parts, slash ∉ part) : ∀ name ∈ follow p parts, IsName name := by
  induction parts generalizing p with
  | nil => exact hp
  | cons part parts ih =>
    obtain ⟨hpart, hrest⟩ := List.forall_mem_cons.mp hparts
    rw [follow]
    split
    · exact ih hp hrest
    · next hskip =>
      split
      · exact ih (fun name h => hp name (List.dropLast_subset p h)) hrest
      · next hparent =>
        obtain ⟨hempty, hhere⟩ := not_or.mp hskip
        refine ih (fun name h => ?_) hrest
        rcases List.mem_append.mp h with h | h
        · exact hp name h
        · exact List.mem_singleton.mp h ▸ ⟨hempty, hpart, hhere, hparent⟩

theorem split_ne_nil (t : Text) : split t ≠ [] := by
  cases t with
  | nil => exact List.cons_ne_nil _ _
  | cons b t =>
    rw [split]
    split
    · exact List.cons_ne_nil _ _
    · split <;> exact List.cons_ne_nil _ _

theorem split_append (t rest : Text) : split (t ++ slash :: rest) = split t ++ split rest := by
  induction t with
  | nil => exact if_pos rfl
  | cons b t ih =>
    rw [List.cons_append, split, split, ih]
    split
    · rfl
    · cases h : split t with
      | nil => exact absurd h (split_ne_nil t)
      | cons part more => rfl

theorem split_of_unslashed {t : Text} (h : slash ∉ t) : split t = [t] := by
  induction t with
  | nil => rfl
  | cons b t ih =>
    rw [List.mem_cons, not_or] at h
    rw [split, if_neg (Ne.symm h.1), ih h.2]

theorem unslashed_of_mem_split {t part : Text} (h : part ∈ split t) : slash ∉ part := by
  induction t generalizing part with
  | nil => simp_all [split]
  | cons b t ih =>
    rw [split] at h
    split at h
    · rcases List.mem_cons.mp h with rfl | h
      · exact List.not_mem_nil
      · exact ih h
    · next hb =>
      cases hsplit : split t with
      | nil => exact absurd hsplit (split_ne_nil t)
      | cons first more =>
        rw [hsplit] at h ih
        rcases List.mem_cons.mp h with rfl | h
        · exact List.not_mem_cons_of_ne_of_not_mem (Ne.symm hb) (ih List.mem_cons_self)
        · exact ih (List.mem_cons_of_mem _ h)

theorem join_cons_cons (part next : Text) (more : List Text) :
    Text.join [slash] (part :: next :: more) = part ++ slash :: Text.join [slash] (next :: more) := by
  rw [Text.join, List.intercalate_cons_cons, List.append_assoc]
  rfl

theorem join_prefix (part : Text) (more : List Text) :
    ∃ rest, Text.join [slash] (part :: more) = part ++ rest := by
  cases more with
  | nil => exact ⟨[], by rw [Text.join, List.intercalate_singleton, List.append_nil]⟩
  | cons next more => exact ⟨_, join_cons_cons part next more⟩

theorem split_join {parts : List Text} (hne : parts ≠ []) (h : ∀ part ∈ parts, slash ∉ part) :
    split (Text.join [slash] parts) = parts := by
  induction parts with
  | nil => exact absurd rfl hne
  | cons part more ih =>
    obtain ⟨hpart, hmore⟩ := List.forall_mem_cons.mp h
    cases more with
    | nil => rw [Text.join, List.intercalate_singleton, split_of_unslashed hpart]
    | cons next more =>
      rw [join_cons_cons, split_append, split_of_unslashed hpart, ih (by simp) hmore]
      rfl

section Push

variable {rooted : Bool} {part : Text}

theorem push_skip (before : List Text) (h : Skips part) : push rooted before part = before := if_pos h

theorem push_name (before : List Text) (h : ¬ Skips part) (hparent : part ≠ parent) :
    push rooted before part = part :: before := (if_neg h).trans (if_neg hparent)

theorem push_parent_nil (h : ¬ Skips part) (hparent : part = parent) :
    push rooted [] part = if rooted then [] else [part] := (if_neg h).trans (if_pos hparent)

theorem push_parent_cons {last : Text} {rest : List Text} (h : ¬ Skips part) (hparent : part = parent) :
    push rooted (last :: rest) part = if last = parent then part :: last :: rest else rest :=
  (if_neg h).trans (if_pos hparent)

theorem mem_push {before : List Text} {q : Text} (h : q ∈ push rooted before part) :
    q ∈ before ∨ q = part ∧ ¬ Skips q := by
  by_cases hskip : Skips part
  · rw [push_skip before hskip] at h
    exact .inl h
  · have hadd (hq : q ∈ part :: before) : q ∈ before ∨ q = part ∧ ¬ Skips q := by
      rcases List.mem_cons.mp hq with rfl | hq
      · exact .inr ⟨rfl, hskip⟩
      · exact .inl hq
    by_cases hparent : part = parent
    · cases before with
      | nil =>
        rw [push_parent_nil hskip hparent] at h
        split at h
        · exact .inl h
        · exact hadd h
      | cons last rest =>
        rw [push_parent_cons hskip hparent] at h
        split at h
        · exact hadd h
        · exact .inl (List.mem_cons_of_mem _ h)
    · rw [push_name before hskip hparent] at h
      exact hadd h

theorem mem_foldl_push {before parts : List Text} {q : Text} (h : q ∈ parts.foldl (push rooted) before) :
    q ∈ before ∨ q ∈ parts ∧ ¬ Skips q := by
  induction parts generalizing before with
  | nil => exact .inl h
  | cons part parts ih =>
    rcases ih h with hq | ⟨hq, hskip⟩
    · rcases mem_push hq with hq | ⟨rfl, hskip⟩
      · exact .inl hq
      · exact .inr ⟨List.mem_cons_self, hskip⟩
    · exact .inr ⟨List.mem_cons_of_mem _ hq, hskip⟩

end Push

theorem foldl_push_rooted {p : Place} (hp : parent ∉ p) (parts : List Text) :
    parts.foldl (push true) p.reverse = (follow p parts).reverse := by
  induction parts generalizing p with
  | nil => rfl
  | cons part parts ih =>
    rw [List.foldl_cons, follow]
    split
    · next hskip => rw [push_skip _ hskip, ih hp]
    · next hskip =>
      split
      · next hparent =>
        have hpush : push true p.reverse part = p.dropLast.reverse := by
          rw [← List.tail_reverse]
          have hhead : parent ∉ p.reverse := fun h => hp (List.mem_reverse.mp h)
          cases hr : p.reverse with
          | nil => exact push_parent_nil hskip hparent
          | cons last rest =>
            rw [hr, List.mem_cons, not_or] at hhead
            rw [push_parent_cons hskip hparent, if_neg (Ne.symm hhead.1), List.tail_cons]
        rw [hpush, ih fun h => hp (List.dropLast_subset p h)]
      · next hparent =>
        have happend : parent ∉ p ++ [part] := by
          rw [List.mem_append, List.mem_singleton, not_or]
          exact ⟨hp, Ne.symm hparent⟩
        rw [push_name _ hskip hparent, ← ih happend, List.reverse_append, List.reverse_singleton]
        rfl

theorem follow_push (p : Place) {before : List Text} (hbefore : ∀ q ∈ before, ¬ Skips q)
    (part : Text) :
    follow p (push false before part).reverse = follow (follow p before.reverse) [part] := by
  by_cases hskip : Skips part
  · rw [push_skip _ hskip, follow_skip _ _ hskip, follow]
  · have hadd : follow p (part :: before).reverse = follow (follow p before.reverse) [part] := by
      rw [List.reverse_cons, follow_append]
    by_cases hparent : part = parent
    · cases before with
      | nil => rwa [push_parent_nil hskip hparent]
      | cons last rest =>
        rw [push_parent_cons hskip hparent]
        split
        · exact hadd
        · next hlast =>
          -- The component before is a name, which the parent takes away again.
          have hname := (List.forall_mem_cons.mp hbefore).1
          rw [List.reverse_cons, follow_append, follow_down _ _ hname hlast,
            follow_parent _ _ hskip hparent, follow, follow, List.dropLast_concat]
    · rw [push_name _ hskip hparent, hadd]

theorem follow_foldl_push (p : Place) (before : List Text) (hbefore : ∀ q ∈ before, ¬ Skips q)
    (parts : List Text) :
    follow p (parts.foldl (push false) before).reverse = follow (follow p before.reverse) parts := by
  induction parts generalizing before with
  | nil => rfl
  | cons part parts ih =>
    have hpush : ∀ q ∈ push false before part, ¬ Skips q :=
      fun q hq => (mem_push hq).elim (hbefore q) And.right
    rw [List.foldl_cons, ih _ hpush, follow_push p hbefore, ← follow_append, List.singleton_append]

theorem clean_relative {t : Text} (h : ¬ isRooted t) : ¬ isRooted (clean t) ∧ clean t ≠ [] ∧
    ∀ p, follow p (split (clean t)) = follow p (split t) := by
  have hfollow (p : Place) := follow_foldl_push p [] (by simp) (split t)
  have hmem {q : Text} (hq : q ∈ ((split t).foldl (push false) []).reverse) : ¬ Skips q ∧ slash ∉ q := by
    rcases mem_foldl_push (List.mem_reverse.mp hq) with hq | ⟨hq, hskip⟩
    · cases hq
    · exact ⟨hskip, unslashed_of_mem_split hq⟩
  rw [clean, eq_false_of_ne_true h]
  generalize ((split t).foldl (push false) []).reverse = parts at hfollow hmem
  cases parts with
  | nil => exact ⟨by decide, by decide, hfollow⟩
  | cons part more =>
    have hsplit : split (Text.join [slash] (part :: more)) = part :: more :=
      split_join (List.cons_ne_nil _ _) fun q hq => (hmem hq).2
    obtain ⟨hskip, hslash⟩ := hmem List.mem_cons_self
    obtain ⟨rest, hjoin⟩ := join_prefix part more
    cases part with
    | nil => exact absurd (.inl rfl) hskip
    | cons b part =>
      rw [List.mem_cons, not_or] at hslash
      simp only [Bool.false_eq_true, if_false, hjoin, List.cons_append, reduceCtorEq]
      rw [hjoin, List.cons_append] at hsplit
      refine ⟨by simpa [isRooted] using Ne.symm hslash.1, by simp, fun p => ?_⟩
      rw [hsplit, hfollow, List.reverse_nil, follow]

open World (pathOf placeOf)

theorem follow_split_pathOf (p : Place) {q : Place} (hq : ∀ name ∈ q, IsName name) :
    follow p (split (pathOf q)) = p ++ q := by
  have hsplit : split (pathOf q) = [] :: split (Text.join [slash] q) := if_pos rfl
  rw [hsplit, follow_skip _ _ (.inl rfl)]
  cases q with
  | nil => rw [List.append_nil]; exact follow_skip p [] (.inl rfl)
  | cons name q =>
    rw [split_join (List.cons_ne_nil _ _) fun name h => (hq name h).unslashed, follow_names p hq]

theorem placeOf_pathOf {p : Place} (hp : ∀ name ∈ p, IsName name) : placeOf (pathOf p) = p := by
  have hsplit : split (pathOf p) = [] :: split (Text.join [slash] p) := if_pos rfl
  cases p with
  | nil => rfl
  | cons name p =>
    rw [placeOf, hsplit, split_join (List.cons_ne_nil _ _) fun name h => (hp name h).unslashed,
      List.filter_cons_of_neg (by simp), List.filter_eq_self]
    intro name h
    simpa using (hp name h).nonempty

theorem clean_rooted {t : Text} (h : isRooted t) : clean t = pathOf (follow [] (split t)) := by
  have hparts := foldl_push_rooted (p := []) List.not_mem_nil (split t)
  rw [List.reverse_nil] at hparts
  rw [clean, h, hparts, List.reverse_reverse]
  rfl

theorem isRooted_pathOf (p : Place) (rest : Text) : isRooted (pathOf p ++ rest) := by
  simp [isRooted, pathOf]

theorem clean_pathOf {p : Place} (hp : ∀ name ∈ p, IsName name) : clean (pathOf p) = pathOf p := by
  have hrooted := isRooted_pathOf p []
  rw [List.append_nil] at hrooted
  rw [clean_rooted hrooted, follow_split_pathOf [] hp, List.nil_append]

theorem join_pair {t rest : Text} (ht : t ≠ []) (hrest : rest ≠ []) :
    join [t, rest] = clean (t ++ slash :: rest) := by
  rw [join, List.filter_cons_of_pos (by simpa), List.filter_cons_of_pos (by simpa), List.filter_nil]
  refine congrArg clean ((join_cons_cons t rest []).trans ?_)
  rw [Text.join, List.intercalate_singleton]

theorem pathOf_ne_nil (p : Place) : pathOf p ≠ [] := List.cons_ne_nil _ _

theorem join_pathOf {p : Place} (hp : ∀ name ∈ p, IsName name) {name : Text} (hname : IsName name) :
    join [pathOf p, name] = pathOf (p ++ [name]) := by
  rw [join_pair (pathOf_ne_nil p) hname.nonempty, clean_rooted (isRooted_pathOf ..), split_append,
    follow_append, follow_split_pathOf [] hp, split_of_unslashed hname.unslashed, List.nil_append,
    follow_name p hname]

def destination (directory : Place) (t : Text) : Place :=
  follow (if isRooted t then [] else directory) (split t)

theorem destination_pathOf (directory : Place) {p : Place} (hp : ∀ name ∈ p, IsName name) :
    destination directory (pathOf p) = p := by
  have hrooted := isRooted_pathOf p []
  rw [List.append_nil] at hrooted
  rw [destination, if_pos hrooted, follow_split_pathOf [] hp, List.nil_append]

theorem isName_destination {directory : Place} (h : ∀ name ∈ directory, IsName name) (t : Text) :
    ∀ name ∈ destination directory t, IsName name := by
  refine isName_follow (fun name hname => ?_) fun _ => unslashed_of_mem_split
  split at hname
  · cases hname
  · exact h name hname

theorem absolute_join {directory : Place} (hdirectory : ∀ name ∈ directory, IsName name)
    {t name : Text} (ht : t ≠ []) (hname : IsName name) :
    absolute (pathOf directory) (join [t, name]) = pathOf (destination directory t ++ [name]) := by
  have hnames := isName_destination hdirectory t
  have hrooted : isRooted (t ++ slash :: name) = isRooted t := by
    cases t with
    | nil => exact absurd rfl ht
    | cons b t => rfl
  have hfollow (p : Place) : follow p (split (t ++ slash :: name)) = follow p (split t) ++ [name] := by
    rw [split_append, follow_append, split_of_unslashed hname.unslashed, follow_name _ hname]
  rw [join_pair ht hname.nonempty, absolute]
  by_cases h : isRooted t
  · rw [destination, if_pos h] at hnames ⊢
    rw [clean_rooted (hrooted.trans h), hfollow]
    have hroot := isRooted_pathOf (follow [] (split t) ++ [name]) []
    rw [List.append_nil] at hroot
    rw [if_pos hroot, clean_pathOf]
    intro n hn
    rcases List.mem_append.mp hn with hn | hn
    · exact hnames n hn
    · exact List.mem_singleton.mp hn ▸ hname
  · obtain ⟨hclean, hne, hsame⟩ := clean_relative (hrooted ▸ h)
    rw [if_neg hclean, join_pair (pathOf_ne_nil directory) hne, clean_rooted (isRooted_pathOf ..),
      split_append, follow_append, follow_split_pathOf [] hdirectory, List.nil_append, hsame, hfollow,
      destination, if_neg h]

end MiniSharp.Path
