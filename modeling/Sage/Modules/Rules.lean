import Sage.Modules.Files

/-!
# Modules — the files of Rust's rules

Where Rust looks for the file of a module, to be compared with `parseMod` along every chain of
declarations.  Rust remembers how a file was reached; `parentDirFor` only reads its name.

* `Declaration`, `Place` — a declaration without its items, and where one stands.
* `Place.declare` — Rust's rules.
* `Follows`, `follows_iff` — the chains on which every declaration has the file of the rules.
-/

namespace Sage.Modules

/-! ### Paths by their components -/

def components (path : List Char) : List (List Char) :=
  (path.splitOn '/').foldl normalizePart []

/-- A component that is kept as it is. -/
structure Plain (part : List Char) : Prop where
  slash : '/' ∉ part
  ne_nil : part ≠ []
  ne_dot : part ≠ ['.']
  ne_parent : part ≠ ['.', '.']

theorem Plain.normalizePart {part : List Char} (h : Plain part) (parts : List (List Char)) :
    normalizePart parts part = parts ++ [part] := by
  simp [Sage.Modules.normalizePart, h.ne_nil, h.ne_dot, h.ne_parent]

/-- A text to which a path can be appended: a directory. -/
def IsDirectory (dir : List Char) : Prop := dir = [] ∨ ∃ before, dir = before ++ ['/']

theorem components_append {dir : List Char} (h : IsDirectory dir) (path : List Char) :
    components (dir ++ path) = (path.splitOn '/').foldl normalizePart (components dir) := by
  obtain rfl | ⟨before, rfl⟩ := h
  · rfl
  · -- What is after the last slash of a directory is empty, and dropped.
    rw [components, components, List.append_assoc, List.singleton_append,
      List.splitOn_append_cons_self, List.splitOn_append_cons_self, List.splitOn_nil,
      List.foldl_append, List.foldl_append]
    rfl

theorem components_plain {dir part : List Char} (h : IsDirectory dir) (hpart : Plain part) :
    components (dir ++ part) = components dir ++ [part] := by
  rw [components_append h, List.splitOn_eq_singleton hpart.slash]
  exact hpart.normalizePart _

theorem components_plain_two {dir part part' : List Char} (h : IsDirectory dir)
    (hpart : Plain part) (hpart' : Plain part') :
    components (dir ++ (part ++ '/' :: part')) = components dir ++ [part, part'] := by
  rw [components_append h, List.splitOn_append_cons_self, List.splitOn_eq_singleton hpart.slash,
    List.splitOn_eq_singleton hpart'.slash, List.singleton_append, List.foldl_cons,
    List.foldl_cons, List.foldl_nil, hpart.normalizePart, hpart'.normalizePart]
  simp

theorem mem_normalizePart {parts : List (List Char)} {part part' : List Char}
    (h : part' ∈ normalizePart parts part) : part' ∈ parts ∨ (part' = part ∧ part ≠ []) := by
  unfold normalizePart at h
  split at h
  · exact .inl h
  · next hpart =>
    split at h
    · exact .inl (List.mem_of_mem_dropLast h)
    · obtain h | h := List.mem_append.mp h
      · exact .inl h
      · refine .inr ⟨List.mem_singleton.mp h, fun hnil => hpart (.inl hnil)⟩

theorem mem_foldl_normalizePart {path : List (List Char)} {part : List Char} :
    ∀ {parts : List (List Char)}, part ∈ path.foldl normalizePart parts →
    part ∈ parts ∨ (part ∈ path ∧ part ≠ []) := by
  induction path with
  | nil => exact fun h => .inl h
  | cons part' path ih =>
      intro parts h
      obtain h | ⟨h, hne⟩ := ih h
      · obtain h | ⟨rfl, hne⟩ := mem_normalizePart h
        · exact .inl h
        · exact .inr ⟨List.mem_cons_self .., hne⟩
      · exact .inr ⟨List.mem_cons_of_mem _ h, hne⟩

theorem components_ne_nil {path part : List Char} (h : part ∈ components path) : part ≠ [] := by
  obtain h | h := mem_foldl_normalizePart h
  · exact absurd h List.not_mem_nil
  · exact h.2

theorem mem_splitOn_slash {path : List Char} : ∀ part ∈ path.splitOn '/', '/' ∉ part := by
  induction path with
  | nil =>
      intro part hpart
      rw [List.splitOn_nil, List.mem_singleton] at hpart
      simp [hpart]
  | cons c path ih =>
      intro part hpart
      rw [List.splitOn_cons_eq_if_modifyHead] at hpart
      obtain ⟨head, rest, hsplit⟩ := List.exists_cons_of_ne_nil (List.splitOn_ne_nil '/' path)
      rw [hsplit] at ih hpart
      split at hpart
      · obtain rfl | hpart := List.mem_cons.mp hpart
        · nofun
        · exact ih part hpart
      · next hc =>
        obtain rfl | hpart := List.mem_cons.mp hpart
        · rw [List.mem_cons, not_or]
          exact ⟨fun heq => hc (heq ▸ rfl), ih head (List.mem_cons_self ..)⟩
        · exact ih part (List.mem_cons_of_mem _ hpart)

/-- Two paths are one after normalization exactly if their components are the same. -/
theorem normalizePath_inj {path path' : List Char} :
    normalizePath path = normalizePath path' ↔ components path = components path' := by
  constructor
  · intro h
    have hsplit : ∀ path, components path = [] ∨
        (normalizePath path).splitOn '/' = components path := by
      intro path
      by_cases hnil : components path = []
      · exact .inl hnil
      · refine .inr (List.splitOn_intercalate '/' ?_ hnil)
        intro part hpart
        obtain hpart | ⟨hpart, -⟩ := mem_foldl_normalizePart hpart
        · exact absurd hpart List.not_mem_nil
        · exact mem_splitOn_slash part hpart
    have hempty : ∀ path, components path = [] → normalizePath path = [] := by
      intro path hnil
      change ['/'].intercalate (components path) = []
      rw [hnil]
      rfl
    -- An empty path has one empty component when it is split, and none that is kept.
    have hne : ∀ path, [[]] ≠ components path := fun path heq =>
      components_ne_nil (heq ▸ List.mem_singleton_self _) rfl
    obtain h₁ | h₁ := hsplit path <;> obtain h₂ | h₂ := hsplit path'
    · rw [h₁, h₂]
    · rw [← h, hempty path h₁] at h₂
      exact absurd h₂ (hne path')
    · rw [h, hempty path' h₂] at h₁
      exact absurd h₁ (hne path)
    · rw [← h₁, ← h₂, h]
  · exact congrArg ['/'].intercalate

/-! ### Directories -/

/-- The directory named after a file. -/
def stemDirectory (path : SourcePath) : List Char :=
  (stripSuffix ".rs".toList path).getD path ++ ['/']

/-- The directory of a file's modules, as far as the file's name tells. -/
def namedDirectory (path : SourcePath) : List Char :=
  if path = "lib.rs".toList ∨ path = "main.rs".toList ∨ "/mod.rs".toList <:+ path then
    directoryOf path
  else if ".rs".toList <:+ path then stemDirectory path
  else []

def under (dir : List Char) (inline : List (List Char)) : List Char :=
  inline.reverse.foldl (fun dir name => dir ++ name ++ ['/']) dir

theorem stripSuffix_append (before suffix : List Char) :
    stripSuffix suffix (before ++ suffix) = some before := by
  simp [stripSuffix]

theorem stripSuffix_eq_none {suffix text : List Char} (h : ¬ suffix <:+ text) :
    stripSuffix suffix text = none := by
  simp [stripSuffix, h]

theorem directoryOf_append {before name : List Char} (h : '/' ∉ name) :
    directoryOf (before ++ '/' :: name) = before ++ ['/'] := by
  have hname : ∀ c ∈ name.reverse, decide (c ≠ '/') = true := by
    intro c hc
    refine decide_eq_true fun heq => h ?_
    exact heq ▸ List.mem_reverse.mp hc
  rw [directoryOf, List.reverse_append, List.reverse_cons, List.append_assoc,
    List.dropWhile_append_of_pos hname]
  simp

theorem parentDirFor_eq (path : SourcePath) : parentDirFor path = namedDirectory path := by
  by_cases hroot : path = "lib.rs".toList ∨ path = "main.rs".toList
  · obtain rfl | rfl := hroot <;> decide
  · have hroot' := not_or.mp hroot
    unfold parentDirFor namedDirectory
    rw [if_neg hroot]
    by_cases hmod : "/mod.rs".toList <:+ path
    · obtain ⟨before, rfl⟩ := hmod
      rw [if_pos (.inr (.inr ⟨before, rfl⟩)), stripSuffix_append]
      exact (directoryOf_append (by decide)).symm
    · rw [if_neg (not_or.mpr ⟨hroot'.1, not_or.mpr ⟨hroot'.2, hmod⟩⟩), stripSuffix_eq_none hmod]
      by_cases hrs : ".rs".toList <:+ path
      · obtain ⟨stem, rfl⟩ := hrs
        rw [if_pos ⟨stem, rfl⟩, stemDirectory, stripSuffix_append]
        rfl
      · rw [if_neg hrs, stripSuffix_eq_none hrs]

theorem isDirectory_directoryOf (path : SourcePath) : IsDirectory (directoryOf path) := by
  unfold directoryOf
  have hhead := List.head?_dropWhile_not (fun c => decide (c ≠ '/')) path.reverse
  cases hdrop : path.reverse.dropWhile fun c => decide (c ≠ '/') with
  | nil => exact .inl rfl
  | cons c rest =>
      rw [hdrop] at hhead
      have hc : c = '/' := by simpa using hhead
      exact .inr ⟨rest.reverse, by rw [List.reverse_cons, hc]⟩

theorem isDirectory_namedDirectory (path : SourcePath) : IsDirectory (namedDirectory path) := by
  unfold namedDirectory
  split
  · exact isDirectory_directoryOf path
  · split
    · exact .inr ⟨_, rfl⟩
    · exact .inl rfl

theorem isDirectory_under {dir : List Char} (h : IsDirectory dir) (inline : List (List Char)) :
    IsDirectory (under dir inline) := by
  cases inline with
  | nil => exact h
  | cons name inline =>
      refine .inr ⟨under dir inline ++ name, ?_⟩
      simp [under]

/-! ### Rust's rules -/

/-- The name of a module: an identifier. -/
structure ModName where
  text : List Char
  ne_nil : text ≠ []
  slash : '/' ∉ text
  dot : '.' ∉ text
  ne_mod : text ≠ "mod".toList

/-- A declaration of a module, without its items. -/
structure Declaration where
  name : ModName
  path : Option (List Char)
  inline : Bool

/-- Where a declaration stands: in a file that is beside the files of its modules or not, and in
inline modules of it, innermost first. -/
structure Place where
  file : SourcePath
  modRs : Bool
  inline : List (List Char)

namespace Place

variable (sources : SourceFiles)

def root (file : SourcePath) : Place := ⟨file, true, []⟩

/-- The directory of the modules, below the inline modules. -/
def directory (p : Place) : List Char :=
  under (if p.modRs then directoryOf p.file else stemDirectory p.file) p.inline

/-- The file of a module without braces, looked for in a directory. -/
@[grind =] def lookIn (dir : List Char) (d : Declaration) : Option Place :=
  match d.path with
  | some path => (sourceFile sources (normalizePath (dir ++ path))).map fun file => ⟨file, true, []⟩
  | none =>
      match sourceFile sources (normalizePath (dir ++ d.name.text ++ ".rs".toList)),
        sourceFile sources (normalizePath (dir ++ d.name.text ++ "/mod.rs".toList)) with
      | some file, none => some ⟨file, false, []⟩
      | none, some file => some ⟨file, true, []⟩
      | _, _ => none

/-- The place inside a declared module.  A `#[path]` directly in a file is relative to the file's
own directory. -/
def declare (p : Place) (d : Declaration) : Option Place :=
  if d.inline then some { p with inline := d.path.getD d.name.text :: p.inline }
  else if d.path.isSome ∧ p.inline = [] then lookIn sources (directoryOf p.file) d
  else lookIn sources p.directory d

/-- The declarations for which the file's name tells enough: inline modules, a `#[path]` directly
in a file, and those that lead to one path from the directory of the name and from the one of the
rules, or in neither to a file. -/
def Told (p : Place) (d : Declaration) : Prop :=
  d.inline = true ∨ (d.path.isSome ∧ p.inline = []) ∨
    let named := under (namedDirectory p.file) p.inline
    let target := d.path.getD d.name.text
    normalizePath (named ++ target) = normalizePath (p.directory ++ target) ∨
      (lookIn sources named d = none ∧ lookIn sources p.directory d = none)

/-- Every declaration of a chain is told by the name of the file it stands in. -/
def ToldAlong (p : Place) : List Declaration → Prop
  | [] => True
  | d :: ds => p.Told sources d ∧ ∀ p', p.declare sources d = some p' → p'.ToldAlong ds

end Place

/-! ### Chains of declarations -/

variable {sources : SourceFiles}

/-- The module of a declaration, as the code finds it. -/
@[grind =]
def Module.declare (sources : SourceFiles) (M : Module) (d : Declaration) : Option Module :=
  parseMod sources M.source M.sym d.name.text 0 d.path (if d.inline then some [] else none)

@[grind =] def Module.file (M : Module) : Option SourcePath :=
  match M.source with
  | .sourceFile path => some path
  | .expansion => none

/-- On a chain of declarations from the root, each has the file of Rust's rules, if any. -/
def Follows (sources : SourceFiles) (root : SourcePath) (nodes : List ItemNode)
    (ds : List Declaration) : Prop :=
  ∀ n, ((ds.take n).foldlM (Module.declare sources)
      ⟨.root root, .sourceFile root, nodes⟩).map Module.file =
    ((ds.take n).foldlM (Place.declare sources) (.root root)).map fun p => some p.file

/-! ### Looking in two directories -/

theorem ModName.plain (name : ModName) : Plain name.text where
  slash := name.slash
  ne_nil := name.ne_nil
  ne_dot h := name.dot (h ▸ List.mem_singleton_self _)
  ne_parent h := name.dot (h ▸ List.mem_cons_self ..)

theorem ModName.plain_rs (name : ModName) : Plain (name.text ++ ".rs".toList) where
  slash := by simpa using name.slash
  ne_nil := by simp
  ne_dot h := absurd (congrArg List.length h) (by simp)
  ne_parent h := absurd (congrArg List.length h) (by simp)

theorem plain_modRs : Plain "mod.rs".toList where
  slash := by decide
  ne_nil := by decide
  ne_dot := by decide
  ne_parent := by decide

namespace Place

variable {dir dir' : List Char} {d : Declaration} {p : Place}

theorem components_rs (h : IsDirectory dir) (name : ModName) :
    components (dir ++ name.text ++ ".rs".toList) =
      components dir ++ [name.text ++ ".rs".toList] := by
  rw [List.append_assoc, components_plain h name.plain_rs]

theorem components_modRs (h : IsDirectory dir) (name : ModName) :
    components (dir ++ name.text ++ "/mod.rs".toList) =
      components dir ++ [name.text, "mod.rs".toList] := by
  rw [List.append_assoc]
  exact components_plain_two h name.plain plain_modRs

theorem normalizePath_name (h : IsDirectory dir) (h' : IsDirectory dir') (name : ModName) :
    normalizePath (dir ++ name.text) = normalizePath (dir' ++ name.text) ↔
      components dir = components dir' := by
  rw [normalizePath_inj, components_plain h name.plain, components_plain h' name.plain,
    List.append_left_inj]

/-- No file is `name.rs` in one directory and `name/mod.rs` in another. -/
theorem rs_ne_modRs (h : IsDirectory dir) (h' : IsDirectory dir') (name : ModName) :
    normalizePath (dir ++ name.text ++ ".rs".toList) ≠
      normalizePath (dir' ++ name.text ++ "/mod.rs".toList) := by
  intro heq
  rw [normalizePath_inj, components_rs h, components_modRs h',
    show components dir' ++ [name.text, "mod.rs".toList] =
      (components dir' ++ [name.text]) ++ ["mod.rs".toList] by simp] at heq
  have hlast := (List.append_inj' heq rfl).2
  rw [List.singleton_inj, show "mod.rs".toList = "mod".toList ++ ".rs".toList from rfl,
    List.append_left_inj] at hlast
  exact name.ne_mod hlast

theorem lookIn_file (h : lookIn sources dir d = some p) :
    match d.path with
    | some path => normalizePath (dir ++ path) = p.file
    | none => normalizePath (dir ++ d.name.text ++ ".rs".toList) = p.file ∨
        normalizePath (dir ++ d.name.text ++ "/mod.rs".toList) = p.file := by
  unfold lookIn at h
  split at h
  · obtain ⟨file, hfile, rfl⟩ := Option.map_eq_some_iff.mp h
    exact (sourceFile_eq_some hfile).1
  · split at h
    · next file hfile _ =>
        cases h
        exact .inl (sourceFile_eq_some hfile).1
    · next file _ hfile =>
        cases h
        exact .inr (sourceFile_eq_some hfile).1
    · cases h

/-- Files found in two directories are one only where the directories are one to the target. -/
theorem lookIn_eq_iff (h : IsDirectory dir) (h' : IsDirectory dir') :
    (lookIn sources dir d).map Place.file = (lookIn sources dir' d).map Place.file ↔
      normalizePath (dir ++ d.path.getD d.name.text) =
          normalizePath (dir' ++ d.path.getD d.name.text) ∨
        (lookIn sources dir d = none ∧ lookIn sources dir' d = none) := by
  constructor
  · intro heq
    cases hfound : lookIn sources dir d with
    | none =>
        rw [hfound] at heq
        exact .inr ⟨rfl, Option.map_eq_none_iff.mp heq.symm⟩
    | some p =>
        rw [hfound] at heq
        obtain ⟨p', hfound', hfile⟩ := Option.map_eq_some_iff.mp heq.symm
        have hp := lookIn_file hfound
        have hp' := lookIn_file hfound'
        refine .inl ?_
        cases hpath : d.path with
        | some path =>
            rw [hpath] at hp hp'
            exact hp.trans (hfile.symm.trans hp'.symm)
        | none =>
            rw [hpath] at hp hp'
            refine (normalizePath_name h h' d.name).mpr ?_
            obtain hp | hp := hp <;> obtain hp' | hp' := hp'
            · have heq := hp.trans (hfile.symm.trans hp'.symm)
              rw [normalizePath_inj, components_rs h, components_rs h'] at heq
              exact (List.append_inj' heq rfl).1
            · exact absurd (hp.trans (hfile.symm.trans hp'.symm)) (rs_ne_modRs h h' d.name)
            · exact absurd (hp'.trans (hfile.trans hp.symm)) (rs_ne_modRs h' h d.name)
            · have heq := hp.trans (hfile.symm.trans hp'.symm)
              rw [normalizePath_inj, components_modRs h, components_modRs h'] at heq
              exact (List.append_inj' heq rfl).1
  · rintro (heq | ⟨hnone, hnone'⟩)
    · unfold lookIn
      cases hpath : d.path with
      | some path =>
          rw [hpath] at heq
          simp only [show normalizePath (dir ++ path) = normalizePath (dir' ++ path) from heq]
      | none =>
          rw [hpath] at heq
          have hcomponents := (normalizePath_name h h' d.name).mp heq
          have hrs : normalizePath (dir ++ d.name.text ++ ".rs".toList) =
              normalizePath (dir' ++ d.name.text ++ ".rs".toList) := by
            rw [normalizePath_inj, components_rs h, components_rs h', hcomponents]
          have hmod : normalizePath (dir ++ d.name.text ++ "/mod.rs".toList) =
              normalizePath (dir' ++ d.name.text ++ "/mod.rs".toList) := by
            rw [normalizePath_inj, components_modRs h, components_modRs h', hcomponents]
          simp only [hrs, hmod]
    · rw [hnone, hnone']

theorem isDirectory_directory (p : Place) : IsDirectory p.directory := by
  refine isDirectory_under ?_ p.inline
  split
  · exact isDirectory_directoryOf p.file
  · exact .inr ⟨_, rfl⟩

theorem resolveCandidates_eq (hd : d.path = none) :
    resolveCandidates sources dir d.name.text = (lookIn sources dir d).map Place.file := by
  unfold resolveCandidates lookIn
  rw [hd]
  cases hrs : sourceFile sources (normalizePath (dir ++ d.name.text ++ ".rs".toList)) <;>
    cases hmod : sourceFile sources (normalizePath (dir ++ d.name.text ++ "/mod.rs".toList)) <;>
    simp only [List.filterMap_cons, hrs, hmod, List.filterMap_nil] <;> rfl

end Place

/-! ### One declaration -/

/-- A module and a place that are in one file, below the same inline modules. -/
structure Related (M : Module) (p : Place) : Prop where
  source : M.source = .sourceFile p.file
  inline : M.sym.inlineDirectories = p.inline

variable {M : Module} {p : Place} {d : Declaration}

theorem Related.file (h : Related M p) : M.file = some p.file := by
  rw [Module.file, h.source]

/-- The directory in which the code looks. -/
theorem Related.modFile_eq (h : Related M p) :
    modFile sources M.source M.sym d.name.text d.path =
      (Place.lookIn sources
        (if d.path.isSome ∧ p.inline = [] then directoryOf p.file
          else under (namedDirectory p.file) p.inline) d).map Place.file := by
  cases hpath : d.path with
  | some path =>
      simp only [modFile, h.source, moduleDirectory, h.inline, directoryIn,
        parentDirFor_eq, Place.lookIn, hpath]
      cases hinline : p.inline with
      | nil => simp [Function.comp_def]
      | cons name inline => simp [under, Function.comp_def]
  | none =>
      simp only [modFile, resolveModFile, h.source, moduleDirectory, h.inline,
        directoryIn, parentDirFor_eq, Bool.false_and]
      exact Place.resolveCandidates_eq hpath

/-- The file found exists, so the declaration has its module. -/
theorem declare_file (hd : d.inline = false) :
    (M.declare sources d).map Module.file =
      (modFile sources M.source M.sym d.name.text d.path).map some := by
  unfold Module.declare parseMod
  rw [if_neg (by simp [hd])]
  cases hfile : modFile sources M.source M.sym d.name.text d.path with
  | none => rfl
  | some file =>
      obtain ⟨nodes, hnodes⟩ := modFile_lookup hfile
      simp [hnodes, Module.file]

theorem declare_fresh {M' : Module} (hd : d.inline = false) (h : M.declare sources d = some M') :
    ∃ file, M'.source = .sourceFile file ∧ M'.sym.inlineDirectories = [] := by
  unfold Module.declare parseMod at h
  rw [if_neg (by simp [hd])] at h
  obtain ⟨file, -, h⟩ := Option.bind_eq_some_iff.mp h
  obtain ⟨nodes, -, h⟩ := Option.bind_eq_some_iff.mp h
  cases h
  exact ⟨file, rfl, rfl⟩

theorem Place.lookIn_fresh {dir : List Char} {p' : Place} (h : lookIn sources dir d = some p') :
    p'.inline = [] := by
  unfold lookIn at h
  split at h
  · obtain ⟨file, -, rfl⟩ := Option.map_eq_some_iff.mp h
    rfl
  · split at h <;> cases h <;> rfl

theorem Related.declare_inline (h : Related M p) (sources : SourceFiles) (hd : d.inline = true) :
    ∃ M' p', M.declare sources d = some M' ∧ p.declare sources d = some p' ∧ Related M' p' := by
  refine ⟨⟨.child M.sym d.name.text (.inline d.path) 0, M.source, []⟩,
    { p with inline := d.path.getD d.name.text :: p.inline }, ?_, if_pos hd, ⟨h.source, ?_⟩⟩
  · rw [Module.declare, if_pos hd]
    rfl
  · exact congrArg _ h.inline

/-- A declaration has the file of the rules exactly if the name of its own file tells enough. -/
theorem Related.declare_iff (h : Related M p) :
    (M.declare sources d).map Module.file = (p.declare sources d).map (fun p => some p.file) ↔
      p.Told sources d := by
  cases hd : d.inline with
  | true =>
      obtain ⟨M', p', hM', hp', hrelated⟩ := h.declare_inline sources hd
      rw [hM', hp', Option.map_some, Option.map_some, hrelated.file]
      exact iff_of_true rfl (.inl hd)
  | false =>
      have hdeclare : p.declare sources d = if d.path.isSome ∧ p.inline = [] then
          Place.lookIn sources (directoryOf p.file) d else Place.lookIn sources p.directory d :=
        if_neg (by simp [hd])
      rw [declare_file hd, h.modFile_eq, hdeclare]
      by_cases hdirect : d.path.isSome ∧ p.inline = []
      · rw [if_pos hdirect, if_pos hdirect, Option.map_map]
        exact iff_of_true rfl (.inr (.inl hdirect))
      · have hmap : ∀ found : Option Place, found.map (fun p => some p.file) =
            (found.map Place.file).map some := fun found => by
          rw [Option.map_map]
          rfl
        rw [if_neg hdirect, if_neg hdirect, hmap,
          (Option.map_injective fun _ _ => Option.some.inj).eq_iff,
          Place.lookIn_eq_iff (isDirectory_under (isDirectory_namedDirectory _) _)
            p.isDirectory_directory]
        exact ⟨fun htold => .inr (.inr htold), fun htold =>
          (htold.resolve_left (by simp [hd])).resolve_left hdirect⟩

theorem Related.next {M' : Module} {p' : Place} (h : Related M p)
    (hM : M.declare sources d = some M') (hp : p.declare sources d = some p')
    (hfile : M'.file = some p'.file) : Related M' p' := by
  cases hd : d.inline with
  | true =>
      obtain ⟨M₁, p₁, hM₁, hp₁, hrelated⟩ := h.declare_inline sources hd
      rw [hM] at hM₁
      rw [hp] at hp₁
      cases hM₁
      cases hp₁
      exact hrelated
  | false =>
      obtain ⟨file, hsource, hinline⟩ := declare_fresh hd hM
      rw [Module.file, hsource] at hfile
      cases hfile
      refine ⟨hsource, hinline.trans (Eq.symm ?_)⟩
      rw [Place.declare, if_neg (by simp [hd])] at hp
      split at hp <;> exact Place.lookIn_fresh hp

/-! ### Chains -/

theorem Related.chain_iff : ∀ {ds : List Declaration} {M : Module} {p : Place}, Related M p →
    ((∀ n, ((ds.take n).foldlM (Module.declare sources) M).map Module.file =
        ((ds.take n).foldlM (Place.declare sources) p).map fun p => some p.file) ↔
      p.ToldAlong sources ds)
  | [], M, p, h => by
      refine iff_of_true (fun n => ?_) trivial
      rw [List.take_nil]
      exact congrArg some h.file
  | d :: ds, M, p, h => by
      constructor
      · intro hall
        have hone : (M.declare sources d).map Module.file =
            (p.declare sources d).map fun p => some p.file := by simpa using hall 1
        refine ⟨h.declare_iff.mp hone, fun p' hp' => ?_⟩
        rw [hp'] at hone
        obtain ⟨M', hM', hfile⟩ := Option.map_eq_some_iff.mp hone
        refine (h.next hM' hp' hfile).chain_iff.mp fun n => ?_
        have hmore := hall (n + 1)
        rw [List.take_succ_cons, List.foldlM_cons, List.foldlM_cons, hM', hp'] at hmore
        exact hmore
      · rintro ⟨htold, hrest⟩ n
        have hone := h.declare_iff.mpr htold
        cases n with
        | zero => exact congrArg some h.file
        | succ n =>
            rw [List.take_succ_cons, List.foldlM_cons, List.foldlM_cons]
            cases hp' : p.declare sources d with
            | none =>
                rw [hp'] at hone
                rw [Option.map_eq_none_iff.mp hone]
                rfl
            | some p' =>
                rw [hp'] at hone
                obtain ⟨M', hM', hfile⟩ := Option.map_eq_some_iff.mp hone
                rw [hM']
                exact (h.next hM' hp' hfile).chain_iff.mpr (hrest p' hp') n

/-- On a chain of declarations every module has the file of Rust's rules exactly if the name of
each file on it tells how the file was reached, or how it was reached does not matter. -/
theorem follows_iff (sources : SourceFiles) (root : SourcePath) (nodes : List ItemNode)
    (ds : List Declaration) :
    Follows sources root nodes ds ↔ (Place.root root).ToldAlong sources ds :=
  Related.chain_iff ⟨rfl, rfl⟩

/-- In `lib.rs`, `#[path = "a.rs"] mod x;`, and in `a.rs`, `mod b;`. -/
def pathFile : SourceFiles :=
  [("lib.rs".toList, []), ("a.rs".toList, []), ("b.rs".toList, [])]

def nameX : ModName := ⟨['x'], by decide, by decide, by decide, by decide⟩

def nameB : ModName := ⟨['b'], by decide, by decide, by decide, by decide⟩

/-- Rust looks for `b.rs` beside `a.rs`, and the code in the directory `a`. -/
theorem pathFile_not_follows : ¬ Follows pathFile "lib.rs".toList []
    [⟨nameX, some "a.rs".toList, false⟩, ⟨nameB, none, false⟩] := by
  intro h
  have hend := h 2
  revert hend
  decide

end Sage.Modules
