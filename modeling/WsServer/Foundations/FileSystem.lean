import WsServer.Foundations.Paths

/-!
# A file system

A tree of entries with the bytes of the files under their inodes, so that two entries may share a
file. The operations are those of a standard library: where one can fail for a reason that does not
lie in the tree, that it does is an argument.

`Extends` is what an operation that only creates entries does to the tree: every path that names a
file still names it.
-/

set_option autoImplicit false
set_option relaxedAutoImplicit false

namespace WsServer.Foundations

/-- Entries, and the bytes under every inode below `bound`. -/
@[ext]
structure FileSystem (Byte : Type) where
  workingDirectory : Location
  nodes : Location → Option Node
  contents : ℕ → List Byte
  bound : ℕ
  root_directory : nodes [] = some .directory
  parent_directory : ∀ l name, nodes (l ++ [name]) ≠ none → nodes l = some .directory
  inode_lt : ∀ l i, nodes l = some (.file i) → i < bound

namespace FileSystem

variable {Byte : Type} (fs : FileSystem Byte)

/-- Nothing but the root. -/
def empty : FileSystem Byte where
  workingDirectory := []
  nodes := fun l ↦ if l = [] then some .directory else none
  contents := fun _ ↦ []
  bound := 0
  root_directory := rfl
  parent_directory := by simp
  inode_lt := fun l i hl ↦ by
    split_ifs at hl
    simp at hl

/-! ### Looking up -/

/-- The number of links on a path after which the system gives up. -/
def maxLinks : ℕ := 40

def resolve (mode : Lookup) (p : Path) : Except Errno Location :=
  if p.isEmpty then .error .noent
  else walk fs.nodes mode maxLinks (if p.absolute then [] else fs.workingDirectory) p.names

def fileAt (l : Location) : Option ℕ :=
  match fs.nodes l with
  | some (.file i) => some i
  | _ => none

/-- The file that a path names. -/
def inode (p : Path) : Option ℕ :=
  match fs.resolve .target p with
  | .ok l => fs.fileAt l
  | .error _ => none

/-- The bytes of the file that a path names. -/
def read (p : Path) : Option (List Byte) := (fs.inode p).map fs.contents

/-- Two paths name one file. -/
def SameFile (p q : Path) : Prop := ∃ i, fs.inode p = some i ∧ fs.inode q = some i

/-! ### Creating entries -/

/-- Nothing is at `l`, and an entry can be made there. -/
def Vacant (l : Location) : Prop := fs.nodes l = none ∧ fs.nodes l.dropLast = some .directory

instance (l : Location) : Decidable (fs.Vacant l) :=
  inferInstanceAs (Decidable (fs.nodes l = none ∧ fs.nodes l.dropLast = some .directory))

variable {fs}

theorem Vacant.parent_update {l : Location} (hl : fs.Vacant l) (node : Node) (l' : Location)
    (name : String) (hname : Function.update fs.nodes l (some node) (l' ++ [name]) ≠ none) :
    Function.update fs.nodes l (some node) l' = some .directory := by
  have hl' : fs.nodes l' = some .directory := by
    by_cases h : l' ++ [name] = l
    · have hparent := hl.2
      rwa [← h, List.dropLast_concat] at hparent
    · rw [Function.update_of_ne h] at hname
      exact fs.parent_directory l' name hname
  rwa [Function.update_of_ne]
  rintro rfl
  simp [hl.1] at hl'

theorem Vacant.root_update {l : Location} (hl : fs.Vacant l) (node : Node) :
    Function.update fs.nodes l (some node) [] = some .directory := by
  rw [Function.update_of_ne, fs.root_directory]
  rintro rfl
  simp [Vacant, fs.root_directory] at hl

variable (fs)

def makeDirectory (l : Location) (hl : fs.Vacant l) : FileSystem Byte where
  workingDirectory := fs.workingDirectory
  nodes := Function.update fs.nodes l (some .directory)
  contents := fs.contents
  bound := fs.bound
  root_directory := hl.root_update _
  parent_directory := hl.parent_update _
  inode_lt := by
    intro l' i hl'
    by_cases h : l' = l
    · subst h
      simp at hl'
    · rw [Function.update_of_ne h] at hl'
      exact fs.inode_lt l' i hl'

/-- An empty file under a new inode. -/
def makeFile (l : Location) (hl : fs.Vacant l) : FileSystem Byte where
  workingDirectory := fs.workingDirectory
  nodes := Function.update fs.nodes l (some (.file fs.bound))
  contents := Function.update fs.contents fs.bound []
  bound := fs.bound + 1
  root_directory := hl.root_update _
  parent_directory := hl.parent_update _
  inode_lt := by
    intro l' i hl'
    by_cases h : l' = l
    · subst h
      simp only [Function.update_self, Option.some.injEq, Node.file.injEq] at hl'
      omega
    · rw [Function.update_of_ne h] at hl'
      exact (fs.inode_lt l' i hl').trans (Nat.lt_succ_self _)

def setContents (i : ℕ) (bytes : List Byte) : FileSystem Byte :=
  { fs with contents := Function.update fs.contents i bytes }

/-- Bytes at the end of a file. -/
def append (i : ℕ) (bytes : List Byte) : FileSystem Byte :=
  fs.setContents i (fs.contents i ++ bytes)

/-- A file in an empty file system. -/
def singleFile (name : String) (bytes : List Byte) : FileSystem Byte :=
  (empty.makeFile [name] ⟨by simp [empty], rfl⟩).append 0 bytes

/-- One directory, which may exist already; whether it does now is the last part. -/
def createDirectory (fails : Location → Bool) (p : Path) : FileSystem Byte × Bool :=
  match fs.resolve .target p with
  | .ok l => (fs, decide (fs.nodes l = some .directory))
  | .error .noent =>
    match fs.resolve .vacancy p with
    | .ok l =>
      if hl : fs.Vacant l then
        if fails l then (fs, false) else (fs.makeDirectory l hl, true)
      else (fs, false)
    | .error _ => (fs, false)
  | .error _ => (fs, false)

/-- The directories of a path one after the other, after the names `before`. -/
def createAlong (fails : Location → Bool) (absolute : Bool) (fs : FileSystem Byte)
    (before : List String) : List String → FileSystem Byte × Bool
  | [] => (fs, true)
  | name :: rest =>
    if Path.IsSpecial name then createAlong fails absolute fs (before ++ [name]) rest
    else
      match fs.createDirectory fails ⟨absolute, before ++ [name]⟩ with
      | (fs', true) => createAlong fails absolute fs' (before ++ [name]) rest
      | (fs', false) => (fs', false)

/-- `create_directories`; whether the directory exists now is the last part. -/
def createDirectories (fails : Location → Bool) (p : Path) : FileSystem Byte × Bool :=
  createAlong fails p.absolute fs [] p.names

/-- A file opened for writing, with its inode: an existing one, emptied when `truncate`, or a new
one. -/
def openOutput (truncate : Bool) (p : Path) : Option (FileSystem Byte × ℕ) :=
  match fs.resolve .output p with
  | .error _ => none
  | .ok l =>
    match fs.nodes l with
    | some (.file i) => some (if truncate then fs.setContents i [] else fs, i)
    | some _ => none
    | none => if hl : fs.Vacant l then some (fs.makeFile l hl, fs.bound) else none

/-! ### Removing entries -/

/-- `l` and what is below it without the entries `stay` and what they lie in. -/
def erase (l : Location) (stay : List Location) : FileSystem Byte where
  workingDirectory := fs.workingDirectory
  nodes := fun x ↦ if l <+: x ∧ x ≠ [] ∧ ∀ y ∈ stay, ¬ x <+: y then none else fs.nodes x
  contents := fs.contents
  bound := fs.bound
  root_directory := by simp [fs.root_directory]
  parent_directory := by
    intro x name hx
    rw [ne_eq, ite_eq_left_iff, Classical.not_imp] at hx
    obtain ⟨hkept, hx⟩ := hx
    rw [if_neg, fs.parent_directory x name hx]
    rintro ⟨hl, hroot, hstay⟩
    exact hkept ⟨hl.trans (List.prefix_append x [name]), by simp,
      fun y hy hprefix ↦ hstay y hy ((List.prefix_append x [name]).trans hprefix)⟩
  inode_lt := by
    intro x i hx
    split_ifs at hx
    exact fs.inode_lt x i hx

/-- A path leads nowhere any more. The working directory may be gone itself; what is above it can
still be reached from it. -/
def gone (p : Path) : Bool :=
  let above := p.names.takeWhile fun name ↦ Path.IsSpecial name
  let here := above.foldl (fun l name ↦ if name = ".." then l.dropLast else l)
    (if p.absolute then [] else fs.workingDirectory)
  walk fs.nodes .entry maxLinks here (p.names.drop above.length) = .error .noent

/-- `remove_all`, which may stop with some entries left; whether it succeeds is the last part. -/
def removeAll (p : Path) (leaves : Option (List Location)) : FileSystem Byte × Bool :=
  match fs.resolve .entry p with
  | .error .noent => (fs, leaves.isNone)
  | .error _ => (fs, false)
  | .ok l =>
    match leaves with
    | some left => (fs.erase l (l :: left), false)
    | none =>
      if p.bare.names.getLast?.any (fun name ↦ !decide (Path.IsSpecial name)) ∧
          fs.resolve .entry p.bare = .ok l then (fs.erase l [], true)
      else
        -- The root, `"."`, `".."` and what a link with a separator behind it leads to are emptied
        -- and stay. That is no failure if the path went through something that has been removed.
        let emptied := fs.erase l [l]
        (emptied, emptied.gone p.bare)

/-! ### What paths name -/

section Names

variable {fs} {fs' : FileSystem Byte} {mode : Lookup} {p : Path} {l : Location} {i : ℕ}

theorem resolve_eq_ok_iff : fs.resolve mode p = .ok l ↔ p.isEmpty = false ∧
    Leads fs.nodes mode maxLinks (if p.absolute then [] else fs.workingDirectory) p.names l := by
  unfold resolve
  cases hp : p.isEmpty <;> simp [walk_eq_ok_iff]

theorem fileAt_eq_some_iff : fs.fileAt l = some i ↔ fs.nodes l = some (.file i) := by
  unfold fileAt
  split
  · rename_i hnode
    simp [hnode]
  · rename_i hnode
    simp only [reduceCtorEq, false_iff]
    exact hnode i

theorem inode_eq_some_iff : fs.inode p = some i ↔
    ∃ l, fs.resolve .target p = .ok l ∧ fs.nodes l = some (.file i) := by
  unfold inode
  cases hp : fs.resolve .target p with
  | error e => simp
  | ok l => simp [fileAt_eq_some_iff]

theorem read_eq_some_iff {bytes : List Byte} : fs.read p = some bytes ↔
    ∃ i, fs.inode p = some i ∧ fs.contents i = bytes := Option.map_eq_some_iff

theorem inode_lt_bound (hi : fs.inode p = some i) : i < fs.bound := by
  obtain ⟨l, -, hl⟩ := inode_eq_some_iff.mp hi
  exact fs.inode_lt l i hl

theorem resolve_toOutput (hp : fs.resolve .target p = .ok l) : fs.resolve .output p = .ok l := by
  rw [resolve_eq_ok_iff] at hp ⊢
  exact ⟨hp.1, hp.2.toOutput⟩

/-- A path names the file that is written by it. -/
theorem inode_of_resolve_output (hp : fs.resolve .output p = .ok l)
    (hnode : fs.nodes l = some (.file i)) : fs.inode p = some i := by
  obtain ⟨hempty, hlead⟩ := resolve_eq_ok_iff.mp hp
  exact inode_eq_some_iff.mpr
    ⟨l, resolve_eq_ok_iff.mpr ⟨hempty, hlead.toTarget (by simp [hnode])⟩, hnode⟩

/-- A path that names a file has an entry, which is no directory. -/
theorem exists_entry (hi : fs.inode p = some i) : ∃ l node, fs.resolve .entry p = .ok l ∧
    fs.nodes l = some node ∧ node ≠ .directory := by
  obtain ⟨l, hl, hnode⟩ := inode_eq_some_iff.mp hi
  obtain ⟨hp, hlead⟩ := resolve_eq_ok_iff.mp hl
  obtain ⟨l', hlead', hl'⟩ := hlead.exists_entry
  refine ⟨l', ?_⟩
  rw [resolve_eq_ok_iff]
  rcases hl' with rfl | ⟨path, hpath⟩
  · exact ⟨_, ⟨hp, hlead'⟩, hnode, by simp⟩
  · exact ⟨_, ⟨hp, hlead'⟩, hpath, by simp⟩

/-- The entries of `fs` are in `fs'`. -/
structure Extends (fs fs' : FileSystem Byte) : Prop where
  workingDirectory : fs'.workingDirectory = fs.workingDirectory
  nodes : ∀ l node, fs.nodes l = some node → fs'.nodes l = some node

namespace Extends

theorem refl (fs : FileSystem Byte) : Extends fs fs := ⟨rfl, fun _ _ h ↦ h⟩

theorem trans {fs'' : FileSystem Byte} (h : Extends fs fs') (h' : Extends fs' fs'') :
    Extends fs fs'' :=
  ⟨h'.workingDirectory.trans h.workingDirectory,
    fun l node hl ↦ h'.nodes l node (h.nodes l node hl)⟩

theorem resolve (h : Extends fs fs') (hmode : mode.mayMiss = false)
    (hp : fs.resolve mode p = .ok l) : fs'.resolve mode p = .ok l := by
  rw [resolve_eq_ok_iff] at hp ⊢
  refine ⟨hp.1, ?_⟩
  rw [h.workingDirectory]
  exact hp.2.mono h.nodes hmode

theorem inode (h : Extends fs fs') (hi : fs.inode p = some i) : fs'.inode p = some i := by
  obtain ⟨l, hl, hnode⟩ := inode_eq_some_iff.mp hi
  exact inode_eq_some_iff.mpr ⟨l, h.resolve rfl hl, h.nodes l _ hnode⟩

theorem makeDirectory (hl : fs.Vacant l) : Extends fs (fs.makeDirectory l hl) := by
  refine ⟨rfl, fun l' node hl' ↦ ?_⟩
  have hne : l' ≠ l := by
    rintro rfl
    simp [hl.1] at hl'
  simpa [FileSystem.makeDirectory, hne] using hl'

theorem setContents (i : ℕ) (bytes : List Byte) : Extends fs (fs.setContents i bytes) :=
  ⟨rfl, fun _ _ h ↦ h⟩

end Extends

theorem SameFile.mono {q : Path} (hsame : fs.SameFile p q) (h : Extends fs fs') :
    fs'.SameFile p q := by
  obtain ⟨i, hp, hq⟩ := hsame
  exact ⟨i, h.inode hp, h.inode hq⟩

end Names

/-! ### The operations -/

section Operations

variable {fs} {fs' : FileSystem Byte} {p : Path} {l : Location} {i : ℕ}
  {fails : Location → Bool}

/-- Creating directories creates entries and writes to no file. -/
theorem createDirectory_extends (fs : FileSystem Byte) (fails : Location → Bool) (p : Path) :
    Extends fs (fs.createDirectory fails p).1 ∧
      (fs.createDirectory fails p).1.contents = fs.contents := by
  unfold createDirectory
  split
  · exact ⟨.refl fs, rfl⟩
  · split
    · split_ifs with hl hfails
      · exact ⟨.refl fs, rfl⟩
      · exact ⟨.makeDirectory hl, rfl⟩
      · exact ⟨.refl fs, rfl⟩
    · exact ⟨.refl fs, rfl⟩
  · exact ⟨.refl fs, rfl⟩

theorem createAlong_extends (fails : Location → Bool) (absolute : Bool) (fs : FileSystem Byte)
    (before names : List String) :
    Extends fs (createAlong fails absolute fs before names).1 ∧
      (createAlong fails absolute fs before names).1.contents = fs.contents := by
  induction names generalizing fs before with
  | nil => exact ⟨.refl fs, rfl⟩
  | cons name rest ih =>
    unfold createAlong
    split_ifs with hname
    · exact ih fs _
    · obtain ⟨hext, hcontents⟩ := createDirectory_extends fs fails ⟨absolute, before ++ [name]⟩
      split
      · rename_i fs' hfs'
        rw [hfs'] at hext hcontents
        obtain ⟨hext', hcontents'⟩ := ih fs' (before ++ [name])
        exact ⟨hext.trans hext', hcontents'.trans hcontents⟩
      · rename_i fs' hfs'
        rw [hfs'] at hext hcontents
        exact ⟨hext, hcontents⟩

theorem createDirectories_extends (fs : FileSystem Byte) (fails : Location → Bool) (p : Path) :
    Extends fs (fs.createDirectories fails p).1 ∧
      (fs.createDirectories fails p).1.contents = fs.contents :=
  createAlong_extends fails p.absolute fs [] p.names

theorem createAlong_bound (fails : Location → Bool) (absolute : Bool) (fs : FileSystem Byte)
    (before names : List String) :
    (createAlong fails absolute fs before names).1.bound = fs.bound := by
  induction names generalizing fs before with
  | nil => rfl
  | cons name rest ih =>
    have hfirst : (fs.createDirectory fails ⟨absolute, before ++ [name]⟩).1.bound = fs.bound := by
      unfold createDirectory
      repeat' split
      all_goals rfl
    unfold createAlong
    split_ifs with hname
    · exact ih fs _
    · split
      · rename_i fs' hfs'
        rw [hfs'] at hfirst
        exact (ih fs' _).trans hfirst
      · rename_i fs' hfs'
        rwa [hfs'] at hfirst

theorem createDirectories_bound (fs : FileSystem Byte) (fails : Location → Bool) (p : Path) :
    (fs.createDirectories fails p).1.bound = fs.bound :=
  createAlong_bound fails p.absolute fs [] p.names

/-- Nothing is created on a path to a directory. -/
theorem createAlong_of_leads {absolute : Bool} {before names : List String}
    (hempty : absolute = false → before ++ names ≠ [])
    (hall : ∀ pre post, names = pre ++ post → pre ≠ [] → ∃ c,
      Leads fs.nodes .target maxLinks (if absolute then [] else fs.workingDirectory)
        (before ++ pre) c ∧ fs.nodes c = some .directory) :
    createAlong fails absolute fs before names = (fs, true) := by
  induction names generalizing before with
  | nil => rfl
  | cons name rest ih =>
    have hrest := @ih (before ++ [name]) (fun _ ↦ by simp) fun pre post hsplit _ ↦ by
      simpa using hall (name :: pre) post (by simp [hsplit]) (by simp)
    obtain ⟨c, hlead, hc⟩ := hall [name] rest rfl (by simp)
    have hresolve : fs.resolve .target ⟨absolute, before ++ [name]⟩ = .ok c :=
      resolve_eq_ok_iff.mpr ⟨by simp [Path.isEmpty], hlead⟩
    unfold createAlong
    split_ifs
    · exact hrest
    · simp only [createDirectory, hresolve, hc, decide_true]
      exact hrest

/-- The directory of a path that leads somewhere is there. -/
theorem createDirectories_parent {mode : Lookup} (hl : fs.resolve mode p = .ok l) :
    fs.createDirectories fails p.parentPath = (fs, true) := by
  obtain ⟨-, hlead⟩ := resolve_eq_ok_iff.mp hl
  unfold createDirectories Path.parentPath
  rcases List.eq_nil_or_concat p.names with hnames | ⟨names, name, hnames⟩
  · simp [hnames, createAlong]
  · rw [List.concat_eq_append] at hnames
    simp only [hnames, List.dropLast_concat]
    rcases names with _ | ⟨first, names⟩
    · rfl
    · refine createAlong_of_leads (fun _ ↦ by simp) fun pre post hsplit _ ↦ ?_
      rw [hnames, hsplit, List.append_assoc] at hlead
      simpa using hlead.of_append (by simp)

/-- What opening a file for writing does, with its location. -/
structure Opened (fs : FileSystem Byte) (truncate : Bool) (p : Path) (fs' : FileSystem Byte)
    (l : Location) (i : ℕ) : Prop where
  resolve : fs.resolve .output p = .ok l
  node : fs.nodes l = some (.file i) ∨ fs.nodes l = none ∧ i = fs.bound
  workingDirectory : fs'.workingDirectory = fs.workingDirectory
  nodes : fs'.nodes = Function.update fs.nodes l (some (.file i))
  other : ∀ j, j ≠ i → fs'.contents j = fs.contents j
  truncated : truncate = true → fs'.contents i = []

theorem openOutput_opened {truncate : Bool} (hopen : fs.openOutput truncate p = some (fs', i)) :
    ∃ l, Opened fs truncate p fs' l i := by
  unfold openOutput at hopen
  split at hopen
  · cases hopen
  rename_i l hl
  refine ⟨l, ?_⟩
  split at hopen
  · rename_i j hnode
    obtain ⟨rfl, rfl⟩ : (if truncate then fs.setContents j [] else fs) = fs' ∧ j = i := by
      simpa using hopen
    cases truncate
    · exact ⟨hl, Or.inl hnode, rfl, by simp [← hnode], fun _ _ ↦ rfl, by simp⟩
    · refine ⟨hl, Or.inl hnode, rfl, ?_, fun k hk ↦ ?_, fun _ ↦ ?_⟩
      · simp [setContents, ← hnode]
      · simp [setContents, hk]
      · simp [setContents]
  · cases hopen
  · rename_i hnode
    split_ifs at hopen with hvacant
    obtain ⟨rfl, rfl⟩ : fs.makeFile l hvacant = fs' ∧ fs.bound = i := by simpa using hopen
    refine ⟨hl, Or.inr ⟨hnode, rfl⟩, rfl, rfl, fun k hk ↦ ?_, fun _ ↦ ?_⟩
    · simp [makeFile, hk]
    · simp [makeFile]

theorem openOutput_bound {truncate : Bool} (hopen : fs.openOutput truncate p = some (fs', i)) :
    fs.bound ≤ fs'.bound := by
  unfold openOutput at hopen
  repeat' split at hopen
  all_goals cases hopen
  · rfl
  · rfl
  · exact Nat.le_succ _

/-- Opening a file that is there. -/
theorem openOutput_of_inode (hi : fs.inode p = some i) (truncate : Bool) :
    fs.openOutput truncate p = some (if truncate then fs.setContents i [] else fs, i) := by
  obtain ⟨l, hl, hnode⟩ := inode_eq_some_iff.mp hi
  simp only [openOutput, resolve_toOutput hl, hnode]

/-- The path leads to a file, or to a place where one can be made. -/
def Openable (fs : FileSystem Byte) (p : Path) : Prop :=
  ∃ l, fs.resolve .output p = .ok l ∧ ((∃ i, fs.nodes l = some (.file i)) ∨ fs.Vacant l)

theorem openOutput_ne_none_iff {truncate : Bool} : fs.openOutput truncate p ≠ none ↔
    fs.Openable p := by
  unfold openOutput Openable
  rcases fs.resolve .output p with e | l
  · simp
  rcases hnode : fs.nodes l with _ | (_ | i | path)
  · by_cases hl : fs.Vacant l <;> simp [hnode, hl]
  · simp [hnode, Vacant]
  · simp [hnode]
  · simp [hnode, Vacant]

namespace Opened

variable {truncate : Bool} (h : Opened fs truncate p fs' l i)

include h

theorem toExtends : Extends fs fs' := by
  refine ⟨h.workingDirectory, fun l' node hl' ↦ ?_⟩
  rw [h.nodes]
  by_cases hne : l' = l
  · subst hne
    rcases h.node with hnode | ⟨hnode, -⟩
    · rw [Function.update_self, ← hnode, hl']
    · simp [hnode] at hl'
  · rwa [Function.update_of_ne hne]

theorem old : fs.nodes l = none ∨ ∃ j, fs.nodes l = some (.file j) := by
  rcases h.node with hnode | ⟨hnode, -⟩
  · exact Or.inr ⟨i, hnode⟩
  · exact Or.inl hnode

theorem placed : Placed fs.nodes fs'.nodes l i where
  same := fun x hx ↦ by rw [h.nodes, Function.update_of_ne hx]
  file := by rw [h.nodes, Function.update_self]
  old := h.old

/-- The path leads to the file from then on. -/
theorem resolve_target : fs'.resolve .target p = .ok l := by
  obtain ⟨hp, hlead⟩ := resolve_eq_ok_iff.mp h.resolve
  refine resolve_eq_ok_iff.mpr ⟨hp, ?_⟩
  rw [h.workingDirectory]
  exact h.placed.leads_target hlead

theorem inode : fs'.inode p = some i :=
  inode_eq_some_iff.mpr ⟨l, h.resolve_target, by simp [h.nodes]⟩

/-- It led there before when the file is an old one. -/
theorem inode_before (hi : i < fs.bound) : fs.inode p = some i := by
  rcases h.node with hnode | ⟨-, hbound⟩
  · exact inode_of_resolve_output h.resolve hnode
  · omega

end Opened

/-- Removing an entry that is no directory removes nothing else. -/
theorem erase_nodes {node : Node} (hl : fs.nodes l = some node) (hnode : node ≠ .directory)
    (x : Location) : (fs.erase l []).nodes x = if x = l then none else fs.nodes x := by
  have hbelow : ∀ suffix, suffix ≠ [] → fs.nodes (l ++ suffix) = none := by
    intro suffix hsuffix
    induction suffix using List.reverseRecOn with
    | nil => exact absurd rfl hsuffix
    | append_singleton suffix name ih =>
      by_contra hne
      rw [← List.append_assoc] at hne
      have hparent := fs.parent_directory _ name hne
      rcases suffix with _ | ⟨first, suffix⟩
      · rw [List.append_nil, hl] at hparent
        exact hnode (Option.some.inj hparent)
      · simp [ih (by simp)] at hparent
  have hroot : l ≠ [] := by
    rintro rfl
    rw [fs.root_directory] at hl
    exact hnode (Option.some.inj hl).symm
  show (if l <+: x ∧ x ≠ [] ∧ ∀ y ∈ [], ¬ x <+: y then none else fs.nodes x) = _
  by_cases hx : l <+: x
  · obtain ⟨suffix, rfl⟩ := hx
    rcases suffix with _ | ⟨first, suffix⟩
    · simp [hroot]
    · simp [hbelow (first :: suffix) (by simp)]
  · have hne : x ≠ l := by
      rintro rfl
      exact hx (List.prefix_rfl)
    simp [hx, hne]

/-- An entry that is no directory and cannot be removed is all there is. -/
theorem erase_kept {node : Node} (hl : fs.nodes l = some node) (hnode : node ≠ .directory)
    (stay : List Location) : fs.erase l (l :: stay) = fs := by
  refine FileSystem.ext rfl (funext fun x ↦ ?_) rfl rfl
  have herase := erase_nodes hl hnode x
  simp only [erase, List.not_mem_nil, false_implies, implies_true, and_true] at herase ⊢
  by_cases hx : x = l
  · subst hx
    simp
  · rw [if_neg hx] at herase
    by_cases hprefix : l <+: x ∧ x ≠ []
    · rw [if_pos hprefix] at herase
      rw [← herase, ite_self]
    · rw [if_neg fun h ↦ hprefix ⟨h.1, h.2.1⟩]

theorem erase_extends (fs : FileSystem Byte) (l : Location) (stay : List Location) :
    Extends (fs.erase l stay) fs := by
  refine ⟨rfl, fun x node hx ↦ ?_⟩
  simp only [erase] at hx
  split_ifs at hx
  exact hx

theorem removeAll_extends (fs : FileSystem Byte) (p : Path) (leaves : Option (List Location)) :
    Extends (fs.removeAll p leaves).1 fs := by
  unfold removeAll
  split
  · exact .refl fs
  · exact .refl fs
  · split
    · exact erase_extends fs _ _
    · split_ifs
      · exact erase_extends fs _ _
      · exact erase_extends fs _ _

theorem removeAll_files (fs : FileSystem Byte) (p : Path) (leaves : Option (List Location)) :
    (fs.removeAll p leaves).1.contents = fs.contents ∧
      (fs.removeAll p leaves).1.bound = fs.bound := by
  unfold removeAll
  split
  · exact ⟨rfl, rfl⟩
  · exact ⟨rfl, rfl⟩
  · split
    · exact ⟨rfl, rfl⟩
    · split_ifs
      · exact ⟨rfl, rfl⟩
      · exact ⟨rfl, rfl⟩

/-- The path of a file ends in a name. -/
theorem getLast?_of_inode (hi : fs.inode p = some i) :
    ∃ name, p.names.getLast? = some name ∧ ¬ Path.IsSpecial name := by
  obtain ⟨x, hx, hfile⟩ := inode_eq_some_iff.mp hi
  obtain ⟨hp, hlead⟩ := resolve_eq_ok_iff.mp hx
  rcases hnames : p.names.getLast? with _ | last
  -- Without names the path is the root.
  · rw [List.getLast?_eq_none_iff] at hnames
    rw [hnames] at hlead
    cases hlead
    cases habsolute : p.absolute
    · simp [Path.isEmpty, habsolute, hnames] at hp
    · simp [habsolute, fs.root_directory] at hfile
  · refine ⟨last, rfl, fun hspecial ↦ ?_⟩
    have hdirectory :=
      hlead.directory_of_getLast fs.root_directory fs.parent_directory hnames hspecial
    simp [hdirectory] at hfile

/-- The removal of a file by its path. -/
theorem removeAll_file (hi : fs.inode p = some i) (hl : fs.resolve .entry p = .ok l)
    (leaves : Option (List Location)) :
    fs.removeAll p leaves =
      if leaves = none then (fs.erase l [], true) else (fs, false) := by
  obtain ⟨name, hname, hspecial⟩ := getLast?_of_inode hi
  have hbare : p.bare = p := p.bare_of_getLast? hname fun h ↦ hspecial (Or.inl h)
  obtain ⟨l', node, hl', hnode, hfile⟩ := exists_entry hi
  obtain rfl : l = l' := by simpa [hl] using hl'
  unfold removeAll
  simp only [hl, hbare, hname]
  rcases leaves with _ | left
  · simp [hspecial]
  · simp [erase_kept hnode hfile]

/-- A path names nothing when its entry is gone. -/
theorem inode_erase (hi : fs.inode p = some i) (hl : fs.resolve .entry p = .ok l) :
    (fs.erase l []).inode p = none := by
  obtain ⟨l', node, hl', hnode, hfile⟩ := exists_entry hi
  obtain rfl : l = l' := by simpa [hl] using hl'
  by_contra hne
  obtain ⟨k, hk⟩ := Option.ne_none_iff_exists'.mp hne
  obtain ⟨x, node', hx, hnode', -⟩ := exists_entry hk
  obtain rfl : l = x := by simpa [hl] using (erase_extends fs l []).resolve rfl hx
  simp [erase_nodes hnode hfile] at hnode'

/-- The file that a path opened is still named by it when the entry `l` is gone: `l` is neither the
entry of the file nor a link on the way. -/
theorem Opened.inode_erase {truncate : Bool} {d : Location} {node : Node} {k : ℕ}
    (h : Opened fs truncate p fs' d i) (hl : fs.nodes l = some node) (hnode : node ≠ .directory) :
    (fs'.erase l []).inode p = some k ↔ k = i ∧
      (fs.erase l []).resolve .output p = fs.resolve .output p ∧ fs.resolve .output p ≠ .ok l := by
  have hl' : fs'.nodes l = some node := h.toExtends.nodes l node hl
  have herase := erase_nodes hl hnode
  have herase' := erase_nodes hl' hnode
  have hleads : d ≠ l → ((fs'.erase l []).resolve .target p = .ok d ↔
      (fs.erase l []).resolve .output p = .ok d) := by
    intro hd
    rw [resolve_eq_ok_iff, resolve_eq_ok_iff]
    refine and_congr_right fun _ ↦ ?_
    show Leads _ _ _ (if p.absolute then [] else fs'.workingDirectory) _ _ ↔ _
    rw [h.workingDirectory]
    have hplaced : Placed (fs.erase l []).nodes (fs'.erase l []).nodes d i :=
      { same := fun x hx ↦ by rw [herase, herase', h.placed.same x hx]
        file := by rw [herase', if_neg hd, h.placed.file]
        old := by rw [herase, if_neg hd]; exact h.old }
    exact hplaced.leads_iff
  rw [h.resolve, inode_eq_some_iff]
  constructor
  · rintro ⟨x, hx, hfile⟩
    obtain rfl : d = x := by
      simpa [h.resolve_target] using (erase_extends fs' l []).resolve rfl hx
    have hd : d ≠ l := by
      rintro rfl
      simp [herase'] at hfile
    rw [herase', if_neg hd, h.nodes, Function.update_self] at hfile
    exact ⟨by simpa using hfile.symm, (hleads hd).mp hx, by simpa using hd⟩
  · rintro ⟨rfl, hresolve, hd⟩
    have hd : d ≠ l := by simpa using hd
    refine ⟨d, (hleads hd).mpr hresolve, ?_⟩
    rw [herase', if_neg hd, h.nodes, Function.update_self]

end Operations

/-! ### Writing -/

section Writing

variable {fs} {p : Path} {i : ℕ} {bytes : List Byte}

@[simp] theorem inode_append : (fs.append i bytes).inode p = fs.inode p := rfl

@[simp] theorem contents_append_self : (fs.append i bytes).contents i = fs.contents i ++ bytes := by
  simp [append, setContents]

theorem contents_append_of_ne {j : ℕ} (hj : j ≠ i) :
    (fs.append i bytes).contents j = fs.contents j := by
  simp [append, setContents, hj]

end Writing

end FileSystem

end WsServer.Foundations
