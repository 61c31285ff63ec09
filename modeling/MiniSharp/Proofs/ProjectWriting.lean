import MiniSharp.Project.Build
import MiniSharp.Proofs.MachineCalls

namespace MiniSharp.Project

open World

variable {host : Host (StateM World)} {w : World} {p : Place}

theorem call_attempt {α : Type} (reason : FileError → ProjectError)
    (x : StateM World (Except FileError α)) :
    call (attempt reason x).run w = ((call x w).1.mapError reason, (call x w).2) := by
  have hcall : call (attempt reason x).run w = call (attempt reason fun _ => call x w).run w := rfl
  rw [hcall]
  obtain ⟨_ | _, _⟩ := call x w <;> rfl

theorem attempt_ends {α : Type} {reason : FileError → ProjectError}
    {x : StateM World (Except FileError α)} {good : α → World → Prop} {bad : World → Prop} (hok : ∀ a w', call x w = (.ok a, w') → good a w')
    (herror : ∀ e w', call x w = (.error e, w') → bad w') : Ends (attempt reason x) w good bad := by
  rcases h : call x w with ⟨e | a, w'⟩
  · have hbad := herror e w' h
    constructor <;> rw [call_attempt, h]
    · rintro a w'' ⟨⟩
    · rintro e' w'' ⟨⟩
      exact hbad
  · have hgood := hok a w' h
    constructor <;> rw [call_attempt, h]
    · rintro a' w'' ⟨⟩
      exact hgood
    · rintro e w'' ⟨⟩

theorem makeDirectories_ends (hhost : host.Fallible) {reason : FileError → ProjectError}
    (hp : ∀ name ∈ p, Path.IsName name) (hne : p ≠ []) :
    Ends (attempt reason (host.makeDirectories (pathOf p))) w
      (fun _ w' => Spares p w w' ∧ w'.files.get? p = some .directory ∧
        ∀ q, q ≠ [] → w'.files.get? (p ++ q) = w.files.get? (p ++ q))
      (Spares p w) := by
  obtain ⟨hfiles, hnone⟩ := host_makeDirectories (w := w) hp
  have hspares : Spares p w (call (World.host.makeDirectories (pathOf p)) w).2 := by
    intro q _
    rw [hfiles, FileTree.get?_makeDirectories]
    split
    · next h => exact .inr ⟨(FileTree.mem_way.mp (FileTree.mem_way_of_reached h.1)).2, h.2, rfl⟩
    · exact .inl rfl
  refine attempt_ends ?_ ?_
  · intro a w' h
    obtain heq | ⟨e, files, heq, -⟩ := hhost.makeDirectories (pathOf p) w
    · rw [← heq, h] at hspares hfiles hnone
      refine ⟨hspares, ?_, ?_⟩
      · rw [hfiles]
        exact FileTree.get?_makeDirectories_self hne (hnone rfl)
      · intro q hq
        rw [hfiles, FileTree.get?_makeDirectories, if_neg]
        intro hreached
        have hlength := (FileTree.mem_way.mp (FileTree.mem_way_of_reached hreached.1)).2.length_le
        rw [List.length_append] at hlength
        exact hq (List.length_eq_zero_iff.mp (by omega))
    · rw [heq] at h
      cases h
  · intro e w' h
    obtain heq | hfails := hhost.makeDirectories (pathOf p) w
    · rw [← heq, h] at hspares
      exact hspares
    · rw [h] at hfails
      exact hfails.spares hspares

theorem write_ends (hhost : host.Fallible) {reason : FileError → ProjectError}
    (hp : ∀ name ∈ p, Path.IsName name) (hne : p ≠ []) (content : Text) :
    Ends (attempt reason (host.write (pathOf p) content)) w
      (fun _ w' => ∀ q, w'.files.get? q = if q = p then some (.file content) else w.files.get? q)
      (fun w' => ∀ q, q ≠ p → w'.files.get? q = w.files.get? q) := by
  have hother {part : Text} {q : Place} (hq : q ≠ p) :
      (call (World.host.write (pathOf p) part) w).2.files.get? q = w.files.get? q := by
    obtain ⟨hok, herror⟩ := host_write (w := w) hp part
    rcases h : call (World.host.write (pathOf p) part) w with ⟨e | _, w'⟩
    · rw [herror e w' h]
    · rw [hok w' h, FileTree.get?_insert _ hne, if_neg hq]
  refine attempt_ends ?_ ?_
  · intro a w' h q
    obtain heq | ⟨part, e, files, heq, -⟩ := hhost.write (pathOf p) content w
    · rw [(host_write hp content).1 w' (heq ▸ h), FileTree.get?_insert _ hne]
    · rw [heq] at h
      cases h
  · intro e w' h q hq
    obtain heq | ⟨part, e', files, heq, hbetween⟩ := hhost.write (pathOf p) content w
    · rw [heq] at h
      rw [(host_write hp content).2 e w' h]
    · rw [heq] at h
      cases h
      obtain hsame | hafter := hbetween q
      · exact hsame
      · exact hafter.trans (hother hq)

theorem isName_fileName {name : Text} (h : Path.slash ∉ name) : Path.IsName (fileName name) := by
  have hlength : 7 ≤ (fileName name).length := by
    rw [fileName, List.length_append]
    exact Nat.le_add_left 7 _
  have hne {short : Text} (hshort : short.length < 7) : fileName name ≠ short := by
    rintro rfl
    omega
  refine ⟨hne (by decide), ?_, hne (by decide), hne (by decide)⟩
  intro hmem
  obtain hmem | hmem := List.mem_append.mp hmem
  · exact h hmem
  · exact absurd hmem (by decide)

def Replaceable (t : FileTree) (p : Place) (name : Text) : Prop :=
  t.get? p = none ∨ t.get? p = some .directory ∧
    ((∀ child, t.get? (p ++ [child]) = none) ∨ (t.get? (p ++ [fileName name])).isSome)

theorem list_outcome (hhost : host.Fallible) (path : Text) : (call (host.list path) w).2 = w ∧
    ((call (host.list path) w).1 = w.files.list w.directory path ∨
      ∃ e, e.cause ≠ .missing ∧ (call (host.list path) w).1 = .error e) := by
  obtain heq | ⟨e, hcause, heq⟩ := hhost.list path w
  · rw [heq]
    exact ⟨rfl, .inl rfl⟩
  · rw [heq]
    exact ⟨rfl, .inr ⟨e, hcause, rfl⟩⟩

theorem has_outcome (hhost : host.Fallible) (hp : ∀ name ∈ p, Path.IsName name) {name : Text}
    (hname : Path.IsName name) : (call (host.has (Path.join [pathOf p, name])) w).2 = w ∧
      ((call (host.has (Path.join [pathOf p, name])) w).1 → (w.files.get? (p ++ [name])).isSome) := by
  rw [Path.join_pathOf hp hname]
  obtain heq | heq := hhost.has (pathOf (p ++ [name])) w
  · have hnames : ∀ part ∈ p ++ [name], Path.IsName part :=
      List.forall_mem_append.mpr ⟨hp, List.forall_mem_singleton.mpr hname⟩
    rw [heq]
    refine ⟨host_has_world _, fun h => ?_⟩
    rw [← Path.destination_pathOf w.directory hnames]
    exact host_has h
  · rw [heq]
    exact ⟨rfl, fun h => by cases h⟩

theorem remove_ends (hhost : host.Fallible) {reason : FileError → ProjectError} {path : Text}
    (hlocate : w.files.locate w.directory path = .ok p) (hne : p ≠ []) :
    Ends (attempt reason (host.remove path)) w
      (fun _ w' => Spares p w w' ∧ ∀ q, w'.files.get? (p ++ q) = none) (Spares p w) := by
  have hremove := host_remove hlocate
  have hspares : Spares p w { w with files := w.files.remove p } := by
    intro q hq
    rw [FileTree.get?_remove _ hne, if_neg hq]
    exact .inl rfl
  obtain heq | hfails := hhost.remove path w
  · rw [hremove] at heq
    refine attempt_ends ?_ ?_ <;> rw [heq]
    · rintro _ w' ⟨⟩
      refine ⟨hspares, fun q => ?_⟩
      rw [FileTree.get?_remove _ hne, if_pos (List.prefix_append p q)]
    · rintro e w' ⟨⟩
  · rw [hremove] at hfails
    refine attempt_ends ?_ ?_
    · intro _ w' h
      obtain ⟨e, files, heq, -⟩ := hfails
      rw [heq] at h
      cases h
    · intro e w' h
      rw [h] at hfails
      exact hfails.spares hspares

theorem nothing_below {t : FileTree} (ht : t.Sound) (h : ∀ child, t.get? (p ++ [child]) = none)
    {q : Place} (hq : q ≠ []) : t.get? (p ++ q) = none := by
  obtain ⟨child, rest, rfl⟩ := List.exists_cons_of_ne_nil hq
  by_cases hrest : rest = []
  · rw [hrest]
    exact h child
  · rw [← List.singleton_append, ← List.append_assoc]
    refine ht.below ?_ hrest
    rw [h child]
    exact (Option.some_ne_none _).symm

theorem clear_ends (hhost : host.Fallible) (ht : w.files.Sound) (hp : ∀ name ∈ p, Path.IsName name)
    (hne : p ≠ []) {name : Text} (hname : Path.slash ∉ name) :
    Ends (clear host (pathOf p) name) w
      (fun _ w' => Replaceable w.files p name ∧ Spares p w w' ∧
        ∀ q, q ≠ [] → w'.files.get? (p ++ q) = none)
      (fun w' => Spares p w w' ∧ (¬ Replaceable w.files p name → w'.files = w.files)) := by
  obtain ⟨hsame, hlist⟩ := list_outcome (w := w) hhost (pathOf p)
  have hself : Spares p w w := Spares.of_files_eq rfl
  unfold clear
  refine Ends.bind (Ends.lift ⟨hsame, hlist⟩ : Ends _ w (fun r w' => w' = w ∧
    (r = w.files.list w.directory (pathOf p) ∨ ∃ e, e.cause ≠ .missing ∧ r = .error e)) _) ?_
  rintro (e | names) w' ⟨rfl, hr⟩
  · dsimp only
    split
    · next hcause =>
      have hnone : w'.files.get? p = none := by
        obtain heq | ⟨e', hcause', heq⟩ := hr
        · exact FileTree.list_eq_missing ht hp heq.symm hcause
        · cases heq
          exact absurd hcause hcause'
      refine Ends.pure ⟨.inl hnone, hself, fun q hq => ht.below ?_ hq⟩
      rw [hnone]
      exact (Option.some_ne_none _).symm
    · exact Ends.throw ⟨hself, fun _ => rfl⟩
  · have heq : w'.files.list w'.directory (pathOf p) = .ok names := by
      obtain heq | ⟨_, -, heq⟩ := hr
      · exact heq.symm
      · cases heq
    obtain ⟨hlocate, hdirectory, hchildren⟩ := FileTree.list_eq_ok heq
    rw [Path.destination_pathOf _ hp] at hlocate hdirectory hchildren
    cases names with
    | nil =>
      have hempty (child : Text) : w'.files.get? (p ++ [child]) = none := by
        rw [← Option.not_isSome_iff_eq_none, ← FileTree.mem_children, ← hchildren]
        exact List.not_mem_nil
      exact Ends.pure ⟨.inr ⟨hdirectory, .inl hempty⟩, hself, fun q hq => nothing_below ht hempty hq⟩
    | cons child rest =>
      have hhas : Ends
          (liftM (host.has (Path.join [pathOf p, fileName name])) : ExceptT ProjectError _ _) w'
          (fun found w => w = w' ∧ (found → (w'.files.get? (p ++ [fileName name])).isSome))
          (fun w => Spares p w' w ∧ (¬ Replaceable w'.files p name → w.files = w'.files)) :=
        Ends.lift (has_outcome hhost hp (isName_fileName hname))
      refine hhas.bind ?_
      rintro found w ⟨rfl, hfound⟩
      cases found with
      | false => exact Ends.throw ⟨hself, fun _ => rfl⟩
      | true =>
        have hreplaceable : Replaceable w.files p name := .inr ⟨hdirectory, .inr (hfound rfl)⟩
        refine (remove_ends hhost hlocate hne).mono ?_ ?_
        · rintro _ w' ⟨hspares, hnone⟩
          exact ⟨hreplaceable, hspares, fun q _ => hnone q⟩
        · intro w' hspares
          exact ⟨hspares, fun h => absurd hreplaceable h⟩

structure PlainName (name : Text) : Prop extends Path.IsName name where
  unescaped : Text.backslash ∉ name

theorem base_of_unslashed {name : Text} (hne : name ≠ []) (h : Path.slash ∉ name) :
    Path.base name = name := by
  have htrailing : Text.dropTrailing (· == Path.slash) name = name := by
    rw [Text.dropTrailing, List.dropWhile_eq_self_iff.mpr, List.reverse_reverse]
    intro hlength hlast
    exact h (List.mem_reverse.mp (eq_of_beq hlast ▸ List.getElem_mem hlength))
  rw [Path.base, if_neg hne, htrailing, Path.split_of_unslashed h, List.getLast?_singleton,
    Option.filter_some_pos (by simpa), Option.getD_some]

theorem isPlain_iff {name : Text} : ProjectConfig.isPlain name ↔ PlainName name := by
  have hbase : Path.base [] ≠ [] := by decide
  constructor
  · intro h
    simp only [ProjectConfig.isPlain, Bool.and_eq_true, bne_iff_ne, Bool.not_eq_true', beq_iff_eq,
      ← Bool.not_eq_true, List.contains_iff_mem] at h
    obtain ⟨⟨⟨⟨hhere, hparent⟩, hslash⟩, hbackslash⟩, hself⟩ := h
    refine ⟨⟨?_, hslash, hhere, hparent⟩, hbackslash⟩
    rintro rfl
    exact hbase hself
  · intro h
    simp [ProjectConfig.isPlain, h.notHere, h.notParent, h.unslashed, h.unescaped,
      base_of_unslashed h.nonempty h.unslashed]

structure Holds (t : FileTree) (p : Place) (c : ProjectConfig) (source : Text) : Prop where
  directory : t.get? p = some .directory
  source : t.get? (p ++ [sourceFile]) = some (.file source)
  file : t.get? (p ++ [fileName c.name]) = some (.file (Project.file c.framework))
  nothingElse : ∀ q, q ≠ [] → q ≠ [sourceFile] → q ≠ [fileName c.name] → t.get? (p ++ q) = none

theorem sourceFile_ne_fileName (name : Text) : sourceFile ≠ fileName name := by
  intro h
  have hlast := congrArg List.getLast? h
  rw [fileName, List.getLast?_append_of_ne_nil _ (by decide)] at hlast
  exact absurd hlast (by decide)

theorem holds_of_writes {t t' t'' : FileTree} {c : ProjectConfig} {source : Text}
    (hdirectory : t.get? p = some .directory) (hnone : ∀ q, q ≠ [] → t.get? (p ++ q) = none)
    (h : ∀ q, t'.get? q = if q = p ++ [sourceFile] then some (.file source) else t.get? q)
    (h' : ∀ q, t''.get? q =
      if q = p ++ [fileName c.name] then some (.file (file c.framework)) else t'.get? q) :
    Holds t'' p c source where
  directory := by simp [h', h, hdirectory]
  source := by simp [h', h, sourceFile_ne_fileName]
  file := by simp [h']
  nothingElse q hq hsource hfile := by simp [h', h, hsource, hfile, hnone q hq]

theorem spares_of_other {w' : World} {name : Text}
    (h : ∀ q, q ≠ p ++ [name] → w'.files.get? q = w.files.get? q) : Spares p w w' := by
  intro q hq
  refine .inl (h q ?_)
  rintro rfl
  exact hq (List.prefix_append ..)

theorem completed_directory_ne_nil (config : ProjectConfig) : config.completed.directory ≠ [] := by
  dsimp only [ProjectConfig.completed, ProjectConfig.orElse]
  split
  · decide
  · assumption

theorem project_write_ends (hhost : host.Fallible) {log : LogEntry → StateM World Unit}
    (hlog : ∀ entry w, (call (log entry) w).2.files = w.files) {config c : ProjectConfig}
    (hc : config.completed = c) (source : Text) (hw : w.files.Sound)
    (hdirectory : ∀ name ∈ w.directory, Path.IsName name) (hname : PlainName c.name)
    (hp : Path.destination w.directory c.directory ++ [c.name] = p) :
    Ends (write host log config source) w
      (fun _ w' => Replaceable w.files p c.name ∧ Spares p w w' ∧ Holds w'.files p c source)
      (fun w' => Spares p w w' ∧ (¬ Replaceable w.files p c.name → w'.files = w.files)) := by
  have hplain : ¬ (!ProjectConfig.isPlain c.name) = true := by simp [isPlain_iff.mpr hname]
  have hnames : ∀ name ∈ p, Path.IsName name := by
    rw [← hp]
    exact List.forall_mem_append.mpr
      ⟨Path.isName_destination hdirectory _, List.forall_mem_singleton.mpr hname.toIsName⟩
  have hbelow {name : Text} (hname : Path.IsName name) : ∀ part ∈ p ++ [name], Path.IsName part :=
    List.forall_mem_append.mpr ⟨hnames, List.forall_mem_singleton.mpr hname⟩
  have hne : p ≠ [] := by simp [← hp]
  have hfile := isName_fileName hname.unslashed
  have hsource : Path.IsName sourceFile := ⟨by decide, by decide, by decide, by decide⟩
  have hpath : Path.absolute (pathOf w.directory) (Path.join [c.directory, c.name]) = pathOf p := by
    rw [Path.absolute_join hdirectory (hc ▸ completed_directory_ne_nil config) hname.toIsName, hp]
  have hstart : call host.directory w = (pathOf w.directory, w) := hhost.directory w
  unfold write
  rw [hc, if_neg hplain]
  refine Ends.bind (Ends.lift (by rw [hstart]; exact ⟨rfl, rfl⟩) :
    Ends _ w (fun path w' => path = pathOf w.directory ∧ w' = w) _) ?_
  rintro _ w' ⟨rfl, hsame⟩
  subst w'
  dsimp only [sourcePath, filePath]
  rw [hpath, Path.join_pathOf hnames hsource, Path.join_pathOf hnames hfile]
  refine (clear_ends hhost hw hnames hne hname.unslashed).bind ?_
  rintro _ w₁ ⟨hreplaceable, hspares₁, hnone⟩
  -- From here on the directory was replaceable, so a failure only has to spare what is outside it.
  have hbad {w' : World} (h : Spares p w w') :
      Spares p w w' ∧ (¬ Replaceable w.files p c.name → w'.files = w.files) :=
    ⟨h, fun h' => absurd hreplaceable h'⟩
  refine ((makeDirectories_ends hhost hnames hne).mono (fun _ _ h => h)
    fun w' h => hbad (hspares₁.trans h)).bind ?_
  rintro _ w₂ ⟨hmade, hthere, hkept⟩
  have hspares₂ := hspares₁.trans hmade
  refine ((write_ends hhost (hbelow hsource) (by simp) source).mono (fun _ _ h => h)
    fun w' h => hbad (hspares₂.trans (spares_of_other h))).bind ?_
  intro _ w₃ hw₃
  have hspares₃ := hspares₂.trans (spares_of_other fun q hq => (hw₃ q).trans (if_neg hq))
  refine ((write_ends hhost (hbelow hfile) (by simp) (file c.framework)).mono (fun _ _ h => h)
    fun w' h => hbad (hspares₃.trans (spares_of_other h))).bind ?_
  intro _ w₄ hw₄
  have hspares₄ := hspares₃.trans (spares_of_other fun q hq => (hw₄ q).trans (if_neg hq))
  have hholds : Holds w₄.files p c source :=
    holds_of_writes hthere (fun q hq => (hkept q hq).trans (hnone q hq)) hw₃ hw₄
  refine Ends.bind (Ends.lift (hlog _ w₄) : Ends _ w₄ (fun _ w' => w'.files = w₄.files) _) ?_
  intro _ w₅ hfiles
  refine Ends.pure ⟨hreplaceable, hspares₄.trans (Spares.of_files_eq hfiles), ?_⟩
  rw [hfiles]
  exact hholds

/-- Writing a project changes nothing outside the directory of that name below the given one, whatever
goes wrong on the way. A name that is not plain and a directory that is not replaceable are refused with
all files as they were. After a success the directory holds the project alone. -/
theorem writing_spares_other_files {host : Host (StateM World)} (hhost : host.Fallible)
    {log : LogEntry → StateM World Unit} (hlog : ∀ entry w, (call (log entry) w).2.files = w.files)
    (config : ProjectConfig) (source : Text) {w w' : World} (hw : w.files.Sound)
    (hdirectory : ∀ name ∈ w.directory, Path.IsName name) {r : Except ProjectError Project}
    (h : call (write host log config source).run w = (r, w')) :
    let c := config.completed
    let p := Path.destination w.directory c.directory ++ [c.name]
    Spares p w w' ∧
      (¬ PlainName c.name ∨ ¬ Replaceable w.files p c.name → (∃ e, r = .error e) ∧ w'.files = w.files) ∧
      ∀ project, r = .ok project → Holds w'.files p c source := by
  intro c p
  by_cases hname : PlainName c.name
  · have hends := project_write_ends hhost hlog rfl source hw hdirectory hname rfl
    cases r with
    | error e =>
      obtain ⟨hspares, hrefused⟩ := hends.error e w' h
      refine ⟨hspares, ?_, by rintro _ ⟨⟩⟩
      rintro (hplain | hreplaceable)
      · exact absurd hname hplain
      · exact ⟨⟨e, rfl⟩, hrefused hreplaceable⟩
    | ok project =>
      obtain ⟨hreplaceable, hspares, hholds⟩ := hends.ok project w' h
      refine ⟨hspares, ?_, fun _ _ => hholds⟩
      rintro (hplain | hreplaceable')
      · exact absurd hname hplain
      · exact absurd hreplaceable hreplaceable'
  · have hplain : (!ProjectConfig.isPlain c.name) = true := by
      rw [Bool.not_eq_true', ← Bool.not_eq_true, isPlain_iff]
      exact hname
    unfold write at h
    rw [if_pos hplain] at h
    cases h
    exact ⟨Spares.of_files_eq rfl, fun _ => ⟨⟨_, rfl⟩, rfl⟩, by rintro _ ⟨⟩⟩

def earlier : World where
  directory := ["work"]
  files := ⟨[(["work"], .directory), (["work", "notes.txt"], .file "keep"),
    (["work", "App"], .directory), (["work", "App", "App.csproj"], .file "old"),
    (["work", "App", "bin"], .directory), (["work", "App", "bin", "App.dll"], .file "code")]⟩
  utilities := []
  output := []
  complaints := []

theorem writing_spares_other_files_earlier :
    ∃ project w, call (write World.host (fun _ => pure ()) ⟨[], [], "App", []⟩ "class P;").run earlier =
        (.ok project, w) ∧
      Spares ["work", "App"] earlier w ∧
      Holds w.files ["work", "App"] (ProjectConfig.completed ⟨[], [], "App", []⟩) "class P;" := by
  have hhost : World.host.Fallible :=
    ⟨fun _ => rfl, fun _ _ => .inl rfl, fun _ _ => .inl rfl, fun _ _ => .inl rfl, fun _ _ => .inl rfl,
      fun _ _ _ => .inl rfl⟩
  have hfiles : earlier.files.Sound := FileTree.sound_of_entries (by decide +kernel)
  have hdirectory : ∀ name ∈ earlier.directory, Path.IsName name := by
    intro name hname
    obtain rfl := List.mem_singleton.mp hname
    exact ⟨by decide, by decide, by decide, by decide⟩
  have hok : (call (write World.host (fun _ => pure ()) ⟨[], [], "App", []⟩ "class P;").run
      earlier).1.isOk := by decide +kernel
  rcases h : call (write World.host (fun _ => pure ()) ⟨[], [], "App", []⟩ "class P;").run earlier with
    ⟨e | project, w⟩
  · rw [h] at hok
    cases hok
  · obtain ⟨hspares, -, hholds⟩ :=
      writing_spares_other_files hhost (fun _ _ => rfl) _ _ hfiles hdirectory h
    exact ⟨project, w, rfl, hspares, hholds project rfl⟩

end MiniSharp.Project
