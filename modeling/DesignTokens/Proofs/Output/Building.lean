import DesignTokens.Output.Plugin
import DesignTokens.Proofs.Outcome

/-!
# The files of several plugins

Files are written one behind the other, and of the files that are there already only the names
matter.  So a plugin can be replaced by another one that gives the same fragments and writes a file
of the same name: the files are the same but for the text of this one (`build_replace`).
-/

namespace DesignTokens.Output

/-! ## Steps that add files -/

/-- A step adds files behind those that are there, and which ones depends on the names of those. -/
def Appends (step : List File → Except Problem (List File)) : Prop :=
  ∃ added : List String → Except Problem (List File),
    ∀ files, step files = (added (files.map File.name)).map (files ++ ·)

theorem appends_addFile (plugin : String) (f : File) :
    Appends fun files => addFile plugin files f := by
  refine ⟨fun names => if f.name ∈ names then .error (.overwritten plugin f.name) else .ok [f], ?_⟩
  intro files
  have hnames : files.any (·.name = f.name) = true ↔ f.name ∈ files.map File.name := by
    simp
  simp only [addFile, hnames]
  split <;> rfl

/-- Steps one after the other add what each of them adds. -/
theorem appends_foldlM {α : Type} {step : List File → α → Except Problem (List File)}
    {items : List α} (h : ∀ a ∈ items, Appends (step · a)) :
    Appends fun files => items.foldlM step files := by
  induction items with
  | nil =>
    -- nothing is added
    refine ⟨fun _ => .ok [], fun files => ?_⟩
    simp [Except.map, pure, Except.pure]
  | cons a items ih =>
    -- the later steps find the files of the first one among those that are there
    obtain ⟨first, hfirst⟩ := h a List.mem_cons_self
    obtain ⟨more, hmore⟩ := ih fun b hb => h b (List.mem_cons_of_mem _ hb)
    refine ⟨fun names => first names >>= fun fs =>
      (more (names ++ fs.map File.name)).map (fs ++ ·), fun files => ?_⟩
    simp only [List.foldlM_cons] at hfirst hmore ⊢
    rw [hfirst]
    cases first (files.map File.name) with
    | error problem => rfl
    | ok fs =>
      change items.foldlM step (files ++ fs) = Except.map _ (Except.map _ _)
      rw [hmore, List.map_append]
      cases more (files.map File.name ++ fs.map File.name) with
      | error problem => rfl
      | ok rest => simp [Except.map]

/-- The files with those of one more plugin. -/
def addFiles (t : Table) (store : Fragments) (files : List File) (p : Plugin) :
    Except Problem (List File) := do
  (← ofFault (p.files t store)).foldlM (addFile p.name) files

theorem appends_addFiles (t : Table) (store : Fragments) (p : Plugin) :
    Appends (addFiles t store · p) := by
  unfold addFiles
  cases p.files t store with
  | error fault => exact ⟨fun _ => .error (.fault fault), fun _ => rfl⟩
  | ok fs => exact appends_foldlM fun f _ => appends_addFile p.name f

/-! ## Builds -/

theorem build_eq (plugins : List Plugin) (t : Table) :
    build plugins t = fragments plugins t >>= fun store =>
      plugins.foldlM (addFiles t store) [] := rfl

/-- The fragments of a plugin are all that the others learn of it. -/
theorem fragments_replace {t : Table} {p q : Plugin} (h : p.fragments t = q.fragments t)
    (before after : List Plugin) :
    fragments (before ++ p :: after) t = fragments (before ++ q :: after) t := by
  simp only [fragments, List.foldlM_append, List.foldlM_cons, h]

theorem addFiles_single {t : Table} {store : Fragments} {p : Plugin} {f : File}
    (h : p.files t store = .ok [f]) (files : List File) :
    addFiles t store files p = addFile p.name files f := by
  rw [addFiles, h]
  change (addFile p.name files f >>= pure) = _
  exact bind_pure _

/-- What stands around the one file of a plugin does not depend on the text of this file. -/
theorem exists_around (t : Table) (store : Fragments) (plugin file : String)
    (before after : List Plugin) :
    ∃ around : Except Problem (List File × List File), ∀ p text, p.name = plugin →
      p.files t store = .ok [⟨file, text⟩] →
      (before ++ p :: after).foldlM (addFiles t store) [] =
        around.map fun (front, back) => front ++ ⟨file, text⟩ :: back := by
  have hafter : Appends fun files => after.foldlM (addFiles t store) files :=
    appends_foldlM fun p _ => appends_addFiles t store p
  obtain ⟨added, hadded⟩ := hafter
  simp only at hadded
  refine ⟨before.foldlM (addFiles t store) [] >>= fun front =>
    if front.any (·.name = file) then .error (.overwritten plugin file)
    else (added (front.map File.name ++ [file])).map (front, ·), ?_⟩
  intro p text hname hfiles
  rw [List.foldlM_append]
  cases before.foldlM (addFiles t store) [] with
  | error problem => rfl
  | ok front =>
    change (p :: after).foldlM (addFiles t store) front = Except.map _ (if _ then _ else _)
    rw [List.foldlM_cons, addFiles_single hfiles, addFile, hname]
    split
    · -- there is a file of this name already, whatever the text of the new one
      rfl
    · change after.foldlM (addFiles t store) (front ++ [⟨file, text⟩]) = _
      rw [hadded, List.map_append, List.map_singleton]
      cases added (front.map File.name ++ [file]) with
      | error problem => rfl
      | ok back => simp [Except.map]

/-- When a plugin is replaced by another one of the same name that gives the same fragments and
writes one file of the same name, only the text of this file is another one. -/
theorem build_replace {t : Table} {p q : Plugin} {file : String} {textp textq : Fragments → String}
    (hname : p.name = q.name) (hfragments : p.fragments t = q.fragments t)
    (hp : ∀ store, p.files t store = .ok [⟨file, textp store⟩])
    (hq : ∀ store, q.files t store = .ok [⟨file, textq store⟩]) (before after : List Plugin) :
    (∃ problem, build (before ++ p :: after) t = .error problem ∧
      build (before ++ q :: after) t = .error problem) ∨
    ∃ store front back, fragments (before ++ p :: after) t = .ok store ∧
      build (before ++ p :: after) t = .ok (front ++ ⟨file, textp store⟩ :: back) ∧
      build (before ++ q :: after) t = .ok (front ++ ⟨file, textq store⟩ :: back) := by
  rw [build_eq, build_eq, ← fragments_replace hfragments]
  cases fragments (before ++ p :: after) t with
  | error problem => exact .inl ⟨problem, rfl, rfl⟩
  | ok store =>
    obtain ⟨around, haround⟩ := exists_around t store q.name file before after
    have hbuildp := haround p _ hname (hp store)
    have hbuildq := haround q _ rfl (hq store)
    cases around with
    | error problem => exact .inl ⟨problem, hbuildp, hbuildq⟩
    | ok around => exact .inr ⟨store, around.1, around.2, rfl, hbuildp, hbuildq⟩

end DesignTokens.Output
