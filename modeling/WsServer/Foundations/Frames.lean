import WsServer.Foundations.FileSystem

/-!
# What the operations of a file system leave alone

`Frame` says that one file system has come from another by changes at certain locations and new
directories at others. Without links a path names one location, whatever is there, and a file has
one name: the operations then change nothing but what is at the location of their path.
-/

set_option autoImplicit false
set_option relaxedAutoImplicit false

namespace WsServer.Foundations

/-- Where the names lead from `here` when there are no links. -/
def lexically (here : Location) : List String → Location
  | [] => here
  | name :: rest =>
    if name = "" ∨ name = "." then lexically here rest
    else if name = ".." then lexically here.dropLast rest
    else lexically (here ++ [name]) rest

theorem Leads.eq_lexically {nodes : Location → Option Node} {mode : Lookup} {links : ℕ}
    {here l : Location} {names : List String} (hnodes : ∀ l path, nodes l ≠ some (.link path))
    (hlead : Leads nodes mode links here names l) : l = lexically here names := by
  induction hlead with
  | done => rfl
  | stay _ hname _ ih => rw [lexically, if_pos hname, ih]
  | up _ _ ih => simpa [lexically] using ih
  | enter _ hname _ _ _ ih =>
    simp only [Path.IsSpecial, not_or] at hname
    simpa [lexically, hname] using ih
  | miss _ hname _ _ =>
    simp only [Path.IsSpecial, not_or] at hname
    simp [lexically, hname]
  | last _ _ hnode => exact absurd hnode (hnodes _ _)
  | link _ _ hnode => exact absurd hnode (hnodes _ _)

namespace FileSystem

variable {Byte : Type}

/-- What there is at a location. -/
inductive Entry (Byte : Type)
  | directory
  | file (bytes : List Byte)
  | link (path : Path)

def entry (fs : FileSystem Byte) (l : Location) : Option (Entry Byte) :=
  (fs.nodes l).map fun node ↦
    match node with
    | .directory => .directory
    | .file i => .file (fs.contents i)
    | .link path => .link path

/-- The location of a path when there are no links, also when nothing is there. -/
def location (fs : FileSystem Byte) (p : Path) : Location :=
  lexically (if p.absolute then [] else fs.workingDirectory) p.names

/-- The locations on the way to the directory of a path. -/
def parents (fs : FileSystem Byte) (p : Path) : Set Location :=
  {l | ∃ names, names <+: p.parentPath.names ∧ l = fs.location ⟨p.absolute, names⟩}

/-- No symbolic links, and no file with two names. -/
structure Linkless (fs : FileSystem Byte) : Prop where
  symbolic : ∀ l path, fs.nodes l ≠ some (.link path)
  hard : ∀ l l' i, fs.nodes l = some (.file i) → fs.nodes l' = some (.file i) → l = l'

/-- `fs'` differs from `fs` at most at the locations `changed` and by new directories at the
locations `created`. -/
structure Frame (changed created : Set Location) (fs fs' : FileSystem Byte) : Prop where
  nodes : ∀ l, l ∉ changed → fs'.nodes l = fs.nodes l ∨
    l ∈ created ∧ fs.nodes l = none ∧ fs'.nodes l = some .directory
  contents : ∀ l i, l ∉ changed → fs.nodes l = some (.file i) → fs'.contents i = fs.contents i

variable {fs fs' : FileSystem Byte} {changed created : Set Location} {p : Path} {l : Location}

namespace Frame

theorem refl (fs : FileSystem Byte) : Frame changed created fs fs :=
  ⟨fun _ _ ↦ Or.inl rfl, fun _ _ _ _ ↦ rfl⟩

theorem trans {fs'' : FileSystem Byte} (h : Frame changed created fs fs')
    (h' : Frame changed created fs' fs'') : Frame changed created fs fs'' := by
  refine ⟨fun l hl ↦ ?_, fun l i hl hfile ↦ ?_⟩
  · rcases h.nodes l hl with heq | ⟨hcreated, hnone, hdirectory⟩
    · rw [← heq]
      exact h'.nodes l hl
    · rcases h'.nodes l hl with heq | ⟨-, hnone', -⟩
      · exact Or.inr ⟨hcreated, hnone, heq.trans hdirectory⟩
      · rw [hdirectory] at hnone'
        cases hnone'
  · have hfile' : fs'.nodes l = some (.file i) := by
      rcases h.nodes l hl with heq | ⟨-, hnone, -⟩
      · rw [heq, hfile]
      · rw [hfile] at hnone
        cases hnone
    exact (h'.contents l i hl hfile').trans (h.contents l i hl hfile)

theorem mono {changed' created' : Set Location} (h : Frame changed created fs fs')
    (hchanged : changed ⊆ changed') (hcreated : created ⊆ created') :
    Frame changed' created' fs fs' where
  nodes := fun l hl ↦
    (h.nodes l fun hmem ↦ hl (hchanged hmem)).imp_right (And.imp_left fun hmem ↦ hcreated hmem)
  contents := fun l i hl ↦ h.contents l i fun hmem ↦ hl (hchanged hmem)

theorem entry (h : Frame changed created fs fs') (hne : fs'.entry l ≠ fs.entry l) :
    l ∈ changed ∨ l ∈ created ∧ fs.entry l = none ∧ fs'.entry l = some .directory := by
  by_cases hl : l ∈ changed
  · exact Or.inl hl
  rcases h.nodes l hl with heq | ⟨hcreated, hnone, hdirectory⟩
  · refine absurd ?_ hne
    unfold FileSystem.entry
    rw [heq]
    rcases hnode : fs.nodes l with _ | (_ | i | path)
    · rfl
    · rfl
    · simp [h.contents l i hl hnode]
    · rfl
  · refine Or.inr ⟨hcreated, ?_, ?_⟩
    · simp [FileSystem.entry, hnone]
    · simp [FileSystem.entry, hdirectory]

/-- Bytes added to a file that has no name elsewhere. -/
theorem append {i : ℕ} (bytes : List Byte) (hi : ∀ l, fs.nodes l = some (.file i) → l ∈ changed) :
    Frame changed created fs (fs.append i bytes) := by
  refine ⟨fun _ _ ↦ Or.inl rfl, fun l j hl hfile ↦ contents_append_of_ne ?_⟩
  rintro rfl
  exact hl (hi l hfile)

end Frame

/-! ### The operations -/

namespace Linkless

theorem resolve {mode : Lookup} (h : Linkless fs) (hp : fs.resolve mode p = .ok l) :
    l = fs.location p :=
  (resolve_eq_ok_iff.mp hp).2.eq_lexically h.symbolic

theorem makeDirectory (h : Linkless fs) (hl : fs.Vacant l) : Linkless (fs.makeDirectory l hl) := by
  have hnodes : ∀ x node, (fs.makeDirectory l hl).nodes x = some node → node ≠ .directory →
      fs.nodes x = some node := by
    intro x node hx hnode
    by_cases hne : x = l
    · subst hne
      obtain rfl : Node.directory = node := by simpa [FileSystem.makeDirectory] using hx
      exact absurd rfl hnode
    · simpa [FileSystem.makeDirectory, hne] using hx
  refine ⟨fun x path hx ↦ ?_, fun x y i hx hy ↦ ?_⟩
  · exact h.symbolic x path (hnodes x _ hx (by simp))
  · exact h.hard x y i (hnodes x _ hx (by simp)) (hnodes y _ hy (by simp))

end Linkless

theorem createDirectory_frame (h : Linkless fs) (fails : Location → Bool) (p : Path) :
    Linkless (fs.createDirectory fails p).1 ∧
      Frame ∅ {fs.location p} fs (fs.createDirectory fails p).1 := by
  unfold createDirectory
  split
  · exact ⟨h, .refl fs⟩
  · split
    · rename_i l hresolve
      split_ifs with hl hfails
      · exact ⟨h, .refl fs⟩
      · refine ⟨h.makeDirectory hl, fun x _ ↦ ?_, fun _ _ _ _ ↦ rfl⟩
        by_cases hx : x = l
        · subst hx
          exact Or.inr ⟨h.resolve hresolve, hl.1, by simp [makeDirectory]⟩
        · exact Or.inl (by simp [makeDirectory, hx])
      · exact ⟨h, .refl fs⟩
    · exact ⟨h, .refl fs⟩
  · exact ⟨h, .refl fs⟩

theorem createAlong_frame (fails : Location → Bool) (absolute : Bool) (before names : List String)
    (h : Linkless fs) (hcreated : ∀ names', names' <+: before ++ names →
      fs.location ⟨absolute, names'⟩ ∈ created) :
    Linkless (createAlong fails absolute fs before names).1 ∧
      Frame ∅ created fs (createAlong fails absolute fs before names).1 := by
  induction names generalizing fs before with
  | nil => exact ⟨h, .refl fs⟩
  | cons name rest ih =>
    rw [List.append_cons] at hcreated
    unfold createAlong
    split_ifs with hname
    · exact ih _ h hcreated
    · have hext := (createDirectory_extends fs fails ⟨absolute, before ++ [name]⟩).1
      obtain ⟨hlinks, hframe⟩ := createDirectory_frame h fails ⟨absolute, before ++ [name]⟩
      have hnew := hcreated (before ++ [name]) (List.prefix_append _ rest)
      have hframe := hframe.mono (subset_refl ∅) (Set.singleton_subset_iff.mpr hnew)
      split
      · rename_i fs' hfs'
        rw [hfs'] at hext hlinks hframe
        obtain ⟨hlinks', hframe'⟩ := ih (before ++ [name]) hlinks fun names' hnames' ↦ by
          rw [location, hext.workingDirectory]
          exact hcreated names' hnames'
        exact ⟨hlinks', hframe.trans hframe'⟩
      · rename_i fs' hfs'
        rw [hfs'] at hlinks hframe
        exact ⟨hlinks, hframe⟩

/-- New directories on the way, and nothing else. -/
theorem createDirectories_parentPath_frame (h : Linkless fs) (fails : Location → Bool) (p : Path) :
    Linkless (fs.createDirectories fails p.parentPath).1 ∧
      Frame ∅ (fs.parents p) fs (fs.createDirectories fails p.parentPath).1 :=
  createAlong_frame fails p.absolute [] p.parentPath.names h fun names' hnames' ↦
    ⟨names', hnames', rfl⟩

namespace Opened

variable {truncate : Bool} {i : ℕ} (h : Opened fs truncate p fs' l i)

include h

theorem linkless (hlinks : Linkless fs) : Linkless fs' := by
  have hfresh : ∀ x, fs.nodes x = some (.file i) → x = l := by
    intro x hx
    rcases h.node with hnode | ⟨-, rfl⟩
    · exact hlinks.hard x l i hx hnode
    · exact absurd (fs.inode_lt x _ hx) (lt_irrefl _)
  have hnodes := h.placed
  refine ⟨fun x path hx ↦ ?_, fun x y j hx hy ↦ ?_⟩
  · exact hlinks.symbolic x path ((hnodes.link_iff x path).mp hx)
  · by_cases hxl : x = l <;> by_cases hyl : y = l
    · rw [hxl, hyl]
    · obtain rfl : i = j := by simpa [hxl, hnodes.file] using hx
      rw [hnodes.same y hyl] at hy
      exact absurd (hfresh y hy) hyl
    · obtain rfl : i = j := by simpa [hyl, hnodes.file] using hy
      rw [hnodes.same x hxl] at hx
      exact absurd (hfresh x hx) hxl
    · rw [hnodes.same x hxl] at hx
      rw [hnodes.same y hyl] at hy
      exact hlinks.hard x y j hx hy

theorem frame (hlinks : Linkless fs) : Frame {l} created fs fs' := by
  refine ⟨fun x hx ↦ Or.inl (h.placed.same x hx), fun x j hx hfile ↦ h.other j ?_⟩
  rintro rfl
  have hfile' : fs'.nodes x = some (.file j) := by rw [h.placed.same x hx, hfile]
  exact hx ((h.linkless hlinks).hard x l j hfile' h.placed.file)

end Opened

/-- Removing changes nothing elsewhere. -/
theorem removeAll_frame (h : Linkless fs) (p : Path) (leaves : Option (List Location)) :
    Frame {l | fs.location p <+: l} created fs (fs.removeAll p leaves).1 := by
  have herase : ∀ l stay, fs.resolve .entry p = .ok l →
      Frame {l | fs.location p <+: l} created fs (fs.erase l stay) := by
    intro l stay hresolve
    obtain rfl := h.resolve hresolve
    exact ⟨fun x hx ↦ Or.inl (if_neg fun hremoved ↦ hx hremoved.1), fun _ _ _ _ ↦ rfl⟩
  unfold removeAll
  split
  · exact .refl fs
  · exact .refl fs
  · rename_i l hresolve
    split
    · exact herase l _ hresolve
    · split_ifs
      · exact herase l _ hresolve
      · exact herase l _ hresolve

/-- The removal of a file changes nothing else. -/
theorem removeAll_file_frame {i : ℕ} (h : Linkless fs) (hi : fs.inode p = some i)
    (leaves : Option (List Location)) :
    Frame {fs.location p} created fs (fs.removeAll p leaves).1 := by
  obtain ⟨l, node, hl, hnode, hfile⟩ := exists_entry hi
  rw [removeAll_file hi hl]
  split_ifs
  · refine ⟨fun x hx ↦ Or.inl ?_, fun _ _ _ _ ↦ rfl⟩
    rw [← h.resolve hl] at hx
    rw [erase_nodes hnode hfile]
    exact if_neg hx
  · exact .refl fs

end FileSystem

end WsServer.Foundations
