import WsServer.Crawler.Registration

/-!
# What a recursive crawl lists

`crawlRecursively` lists the tree below the source directory: a crawl that succeeds lists every
entry that is read there, once and in front of what is in it, under a text that names it. A crawl
that fails has listed the beginning of what it would list without the failures.
-/

set_option autoImplicit false
set_option relaxedAutoImplicit false

namespace WsServer.Crawler

open Foundations DepthFirst

/-! ### The source directory -/

/-- What the registered paths are. -/
def IsNormal (p : Path) : Prop :=
  ∃ l separator, p = ⟨true, Path.spelled l separator⟩ ∧ ∀ name ∈ l, Path.IsFilename name

/-- The working directory is a directory that entries can lead to. -/
def Surroundings.Named (w : Surroundings) : Prop :=
  ∀ name ∈ w.fs.workingDirectory, Path.IsFilename name

section Normal

variable {w : Surroundings} {p q : Path}

theorem names_of_absolute (habsolute : absolute w p = .ok q) :
    q.absolute = true ∧ ∀ name ∈ q.names, name ∈ w.fs.workingDirectory ∨ name ∈ p.names := by
  unfold absolute at habsolute
  split at habsolute
  · cases habsolute
  split at habsolute
  · rename_i hp
    cases habsolute
    exact ⟨hp, fun name ↦ Or.inr⟩
  split at habsolute
  · cases habsolute
  · cases habsolute
    exact ⟨rfl, fun name ↦ List.mem_append.mp⟩

theorem isNormal_of_validated {dirPathStr : String} (hw : w.Named)
    (hvalid : validatedDirectoryPath w dirPathStr = .ok p) : IsNormal p := by
  obtain ⟨-, -, ⟨isAbsolute, names⟩, habsolute, rfl⟩ := validatedDirectoryPath_cases.mp hvalid
  obtain ⟨rfl, hnames⟩ := names_of_absolute habsolute
  refine ⟨_, _, Path.lexicallyNormal_absolute names, fun name hname ↦ ⟨?_, ?_⟩⟩
  · exact lexically_plain (by simp [Path.Plain]) names name hname
  · have hmem := (mem_of_mem_lexically hname).resolve_left List.not_mem_nil
    rcases hnames name hmem with hname | hname
    · exact (hw name hname).2
    · exact Path.separator_not_mem_ofText hname

/-- Whatever a crawler has been pointed at, its source directory is a normal form. -/
theorem isNormal_run {what : FilesystemError → String} {first : Request} {calls : List Call}
    {crawler : DirectoryCrawler}
    (hnamed : ∀ request ∈ first :: calls.map Call.request, request.surroundings.Named)
    (hnew : DirectoryCrawler.construct first.surroundings first.dirPathStr = .ok crawler) :
    IsNormal (run what crawler calls).sourceDirectory := by
  have hregisters : Registers (run what crawler calls) _ := registers_run hnew calls
  obtain ⟨request, hrequest, hpath⟩ :=
    List.mem_filterMap.mp ((hregisters.mem_iff _).mp hregisters.source)
  have hvalid : validatedDirectoryPath request.surroundings request.dirPathStr =
      .ok (run what crawler calls).sourceDirectory := by
    change request.path.toOption = _ at hpath
    change request.path = _
    rcases hresult : request.path with e | path
    · simp [hresult, Except.toOption] at hpath
    · simpa [hresult, Except.toOption] using hpath
  exact isNormal_of_validated (hnamed request hrequest) hvalid

end Normal

/-! ### The entries of a disk -/

namespace Disk

variable (d : Disk)

/-- The names that are read in a directory. -/
def readNames (l : Location) : List String := (Iteration.mk (d.names l) (d.stops l)).read

/-- The same disk with no failures but those that are skipped. -/
def mended : Disk :=
  { d with stops := fun l ↦ (d.stops l).filter fun stop ↦
      decide (stop.2.code = Errc.permissionDenied) }

variable {d} {l : Location} {name : String}

theorem mem_names_of_mem_readNames (hname : name ∈ d.readNames l) : name ∈ d.names l := by
  unfold readNames Iteration.read at hname
  split at hname
  · exact hname
  · exact List.mem_of_mem_take hname

theorem nodup_readNames : (d.readNames l).Nodup := by
  unfold readNames Iteration.read
  split
  · exact d.nodup_names l
  · exact (d.nodup_names l).sublist (List.take_sublist _ _)

theorem readNames_of_stops (hstops : d.stops l = none) : d.readNames l = d.names l := by
  simp [readNames, Iteration.read, hstops]

theorem read_iteration (e : DirectoryEntry) :
    (d.iteration e).read = (d.readNames e.location).map e.child := by
  unfold iteration readNames Iteration.read
  rcases d.stops e.location with _ | ⟨count, error⟩
  · rfl
  · exact (List.map_take).symm

theorem node_of_mem_readNames (hname : name ∈ d.readNames l) : d.fs.nodes (l ++ [name]) ≠ none :=
  (d.mem_names_iff l name).mp (mem_names_of_mem_readNames hname)

theorem children_descend (e : DirectoryEntry) :
    (d.descend e).children = (d.readNames e.location).map e.child := by
  unfold descend
  split_ifs with hnode
  · exact d.read_iteration e
  · rw [eq_comm, List.map_eq_nil_iff, List.eq_nil_iff_forall_not_mem]
    intro name hname
    exact hnode (d.fs.parent_directory _ _ (node_of_mem_readNames hname))

/-- The listings by location. -/
def descendAt (d : Disk) (l : Location) : Listing Location FilesystemError :=
  ⟨(d.readNames l).map fun name ↦ l ++ [name], (d.descend ⟨⟨true, []⟩, l⟩).failure⟩

theorem descendAt_location (e : DirectoryEntry) : d.descendAt e.location =
    ⟨(d.descend e).children.map DirectoryEntry.location, (d.descend e).failure⟩ := by
  have hfailure : (d.descend ⟨⟨true, []⟩, e.location⟩).failure = (d.descend e).failure := by
    unfold descend
    split_ifs <;> rfl
  rw [descendAt, hfailure, children_descend, List.map_map]
  rfl

theorem stops_of_failure {e : DirectoryEntry} {error : FilesystemError}
    (hfailure : (d.descend e).failure = some error) : error.code ≠ Errc.permissionDenied ∧
      ∃ count, d.stops e.location = some (count, error) := by
  unfold descend at hfailure
  split_ifs at hfailure
  obtain ⟨hmap, hcode⟩ := Option.filter_eq_some_iff.mp hfailure
  obtain ⟨⟨count, error⟩, hstops, rfl⟩ := Option.map_eq_some_iff.mp hmap
  exact ⟨of_decide_eq_true hcode, count, hstops⟩

theorem child_descendAt {l' : Location} :
    Child d.descendAt l l' ↔ ∃ name ∈ d.readNames l, l' = l ++ [name] := by
  unfold Child descendAt
  rw [List.mem_map]
  exact exists_congr fun name ↦ and_congr_right fun _ ↦ eq_comm

theorem wellFounded_descendAt : WellFounded fun l' l ↦ Child d.descendAt l l' := by
  refine Subrelation.wf ?_ (measure fun l : Location ↦ d.height + 1 - l.length).wf
  intro l' l hchild
  obtain ⟨name, hname, rfl⟩ := child_descendAt.mp hchild
  have hlength := d.length_le _ (node_of_mem_readNames hname)
  show d.height + 1 - (l ++ [name]).length < d.height + 1 - l.length
  rw [List.length_append, List.length_singleton] at hlength ⊢
  omega

theorem isForest_descendAt : IsForest d.descendAt where
  nodup := fun l ↦ nodup_readNames.map fun name name' heq ↦ by simpa using heq
  parent := fun l l' below hchild hchild' ↦ by
    obtain ⟨name, -, rfl⟩ := child_descendAt.mp hchild
    obtain ⟨name', -, heq⟩ := child_descendAt.mp hchild'
    exact (List.append_inj' heq rfl).1
  wellFounded := wellFounded_descendAt

theorem wellFounded_descend : WellFounded fun e' e ↦ Child d.descend e e' := by
  refine Subrelation.wf ?_ (InvImage.wf DirectoryEntry.location (wellFounded_descendAt (d := d)))
  intro e' e hchild
  show e'.location ∈ (d.descendAt e.location).children
  rw [descendAt_location]
  exact List.mem_map_of_mem hchild

/-- Below `l` the names `below` are read one after the other. -/
def ReadAlong (d : Disk) (l below : Location) : Prop :=
  ∀ above name, above ++ [name] <+: below → name ∈ d.readNames (l ++ above)

theorem readAlong_nil : d.ReadAlong l [] := fun above name hpre ↦ by simp at hpre

theorem readAlong_concat {below : Location} :
    d.ReadAlong l (below ++ [name]) ↔ d.ReadAlong l below ∧ name ∈ d.readNames (l ++ below) := by
  constructor
  · intro h
    exact ⟨fun above name' hpre ↦ h above name' (hpre.trans (List.prefix_append _ _)),
      h below name (List.prefix_refl _)⟩
  · rintro ⟨h, hname⟩ above name' hpre
    rcases List.prefix_concat_iff.mp hpre with heq | hpre
    · obtain ⟨rfl, hname'⟩ := List.append_inj' heq rfl
      obtain rfl := List.singleton_injective hname'
      exact hname
    · exact h above name' hpre

/-- What is read below a directory: the entries that names lead to. -/
theorem below_descendAt {l' : Location} : Relation.ReflTransGen (Child d.descendAt) l l' ↔
    ∃ below, l' = l ++ below ∧ d.ReadAlong l below := by
  constructor
  · intro hpath
    induction hpath with
    | refl => exact ⟨[], by simp, readAlong_nil⟩
    | tail _ hchild ih =>
      obtain ⟨below, rfl, hread⟩ := ih
      obtain ⟨name, hname, rfl⟩ := child_descendAt.mp hchild
      exact ⟨below ++ [name], by simp, readAlong_concat.mpr ⟨hread, hname⟩⟩
  · rintro ⟨below, rfl, hread⟩
    induction below using List.reverseRecOn with
    | nil => rw [List.append_nil]
    | append_singleton below name ih =>
      obtain ⟨hread, hname⟩ := readAlong_concat.mp hread
      rw [← List.append_assoc]
      exact (ih hread).tail (child_descendAt.mpr ⟨name, hname, rfl⟩)

theorem reached_descendAt {l' : Location} : Reached d.descendAt (d.descendAt l) l' ↔
    ∃ below ≠ [], l' = l ++ below ∧ d.ReadAlong l below := by
  rw [reached_list_iff, Relation.TransGen.tail'_iff]
  constructor
  · rintro ⟨c, hpath, hchild⟩
    obtain ⟨below, rfl, hread⟩ := below_descendAt.mp hpath
    obtain ⟨name, hname, rfl⟩ := child_descendAt.mp hchild
    exact ⟨below ++ [name], by simp, by simp, readAlong_concat.mpr ⟨hread, hname⟩⟩
  · rintro ⟨below, hne, rfl, hread⟩
    obtain ⟨above, name, rfl⟩ := (List.eq_nil_or_concat below).resolve_left hne
    rw [List.concat_eq_append] at hread ⊢
    obtain ⟨habove, hname⟩ := readAlong_concat.mp hread
    exact ⟨l ++ above, below_descendAt.mpr ⟨above, rfl, habove⟩,
      child_descendAt.mpr ⟨name, hname, by simp⟩⟩

/-- Names that are read lead to an entry. -/
theorem ReadAlong.node {below : Location} (hread : d.ReadAlong l below) (hne : below ≠ []) :
    d.fs.nodes (l ++ below) ≠ none := by
  obtain ⟨above, name, rfl⟩ := (List.eq_nil_or_concat below).resolve_left hne
  rw [List.concat_eq_append] at hread ⊢
  rw [← List.append_assoc]
  exact node_of_mem_readNames (readAlong_concat.mp hread).2

theorem ReadAlong.isFilename {below : Location} (hread : d.ReadAlong l below) :
    ∀ name ∈ below, Path.IsFilename name := by
  intro name hname
  obtain ⟨above, after, rfl⟩ := List.append_of_mem hname
  refine d.isFilename _ name (mem_names_of_mem_readNames (hread above name ?_))
  exact ⟨after, by simp⟩

theorem ReadAlong.rest {below more : Location} (hread : d.ReadAlong l (below ++ more)) :
    d.ReadAlong (l ++ below) more := by
  rintro above name hpre
  rw [List.append_assoc]
  refine hread (below ++ above) name ?_
  rw [List.append_assoc]
  exact (List.prefix_append_right_inj below).mpr hpre

/-- Where nothing stops, every entry is read. -/
theorem readAlong_of_node {below : Location} (hstops : ∀ l, d.stops l = none)
    (hnode : d.fs.nodes (l ++ below) ≠ none) : d.ReadAlong l below := by
  rintro above name ⟨after, rfl⟩
  rw [readNames_of_stops (hstops _), d.mem_names_iff]
  rw [← List.append_assoc, ← List.append_assoc] at hnode
  exact FileSystem.node_above hnode

/-- A mended disk reads on where a failure ends the reading. -/
theorem cut_mended (d : Disk) (e : DirectoryEntry) : (d.descend e).Cut (d.mended.descend e) := by
  have hnodes : d.mended.fs.nodes e.location = d.fs.nodes e.location := rfl
  have hchildren : (d.mended.descend e).children = (d.mended.readNames e.location).map e.child :=
    children_descend e
  rcases hstops : d.stops e.location with _ | ⟨count, error⟩
  · have heq : (d.descend e).children = (d.mended.descend e).children := by
      have hmended : d.mended.stops e.location = none := by simp [mended, hstops]
      rw [hchildren, children_descend, readNames_of_stops hstops, readNames_of_stops hmended]
      rfl
    exact ⟨heq ▸ List.prefix_refl _, fun _ ↦ heq⟩
  by_cases hcode : error.code = Errc.permissionDenied
  · have heq : (d.descend e).children = (d.mended.descend e).children := by
      have hmended : d.mended.stops e.location = some (count, error) := by
        simp [mended, hstops, hcode]
      rw [hchildren, children_descend, readNames, readNames, hstops, hmended]
      rfl
    exact ⟨heq ▸ List.prefix_refl _, fun _ ↦ heq⟩
  · have hmended : d.mended.stops e.location = none := by simp [mended, hstops, hcode]
    refine ⟨?_, fun hfailure ↦ ?_⟩
    · rw [hchildren, children_descend, readNames_of_stops hmended, readNames, hstops]
      exact (List.take_prefix _ _).map _
    · by_cases hnode : d.fs.nodes e.location = some .directory
      · simp [descend, hnode, iteration, Iteration.skipPermissionDenied, hstops, hcode] at hfailure
      · simp [descend, hnode, hnodes]

theorem failure_mended (d : Disk) (e : DirectoryEntry) : (d.mended.descend e).failure = none := by
  by_contra hfailure
  obtain ⟨error, hfailure⟩ := Option.ne_none_iff_exists'.mp hfailure
  obtain ⟨hcode, count, hstops⟩ := stops_of_failure hfailure
  have hskipped := (Option.filter_eq_some_iff.mp hstops).2
  exact hcode (of_decide_eq_true hskipped)

/-- The walk begins as it goes on, or the source is no directory. -/
theorem descendFrom_cases (d : Disk) (p : Path) :
    (∃ root, d.fs.resolve .target p = .ok root ∧ d.fs.nodes root = some .directory ∧
      d.descendFrom p = d.descend ⟨p, root⟩) ∨
    (∀ root, d.fs.resolve .target p = .ok root → d.fs.nodes root ≠ some .directory) ∧
      ∃ e, d.descendFrom p = ⟨[], some e⟩ ∧ e.code ≠ Errc.permissionDenied := by
  unfold descendFrom openDirectory
  rcases hresolve : d.fs.resolve .target p with (_ | _ | _) | root
  · exact Or.inr ⟨by simp, ⟨_, p, .noSuchFileOrDirectory⟩, rfl, by simp [Errc.permissionDenied]⟩
  · exact Or.inr ⟨by simp, ⟨_, p, .notADirectory⟩, rfl, by simp [Errc.permissionDenied]⟩
  · exact Or.inr ⟨by simp, ⟨_, p, .tooManySymbolicLinkLevels⟩, rfl, by simp [Errc.permissionDenied]⟩
  by_cases hnode : d.fs.nodes root = some .directory
  · refine Or.inl ⟨root, rfl, hnode, ?_⟩
    simp [descend, hnode]
  · refine Or.inr ⟨by simpa using hnode,
      ⟨"recursive directory iterator cannot open directory", p, .notADirectory⟩, ?_,
      by simp [Errc.permissionDenied]⟩
    simp only [hnode, if_false]
    rfl

/-- An entry of the source is called by one name more. -/
theorem path_of_child {root : Location} {separator : Bool}
    (hl : ∀ name ∈ l, Path.IsFilename name) {e : DirectoryEntry}
    (he : e ∈ (d.descend ⟨⟨true, Path.spelled l separator⟩, root⟩).children) :
    ∃ name ∈ d.readNames root, e = ⟨⟨true, l ++ [name]⟩, root ++ [name]⟩ := by
  rw [children_descend] at he
  obtain ⟨name, hname, rfl⟩ := List.mem_map.mp he
  have hfilename := d.isFilename _ name (mem_names_of_mem_readNames hname)
  refine ⟨name, hname, ?_⟩
  rw [DirectoryEntry.child,
    Path.appendName_of_ne (Path.plain_of_isFilename hl) separator hfilename.ne_empty]

/-- An entry below the source is called by the names that lead to it. -/
theorem path_of_reached {root : Location} {separator : Bool}
    (hl : ∀ name ∈ l, Path.IsFilename name) {e : DirectoryEntry}
    (hreached : Reached d.descend (d.descend ⟨⟨true, Path.spelled l separator⟩, root⟩) e) :
    ∃ below ≠ [], e = ⟨⟨true, l ++ below⟩, root ++ below⟩ ∧ d.ReadAlong root below := by
  obtain ⟨c, hc, hpath⟩ := hreached
  induction hpath with
  | refl =>
    obtain ⟨name, hname, rfl⟩ := path_of_child hl hc
    exact ⟨[name], by simp, rfl, readAlong_concat.mpr ⟨readAlong_nil, by simpa using hname⟩⟩
  | @tail e e' hpath hchild ih =>
    obtain ⟨below, -, rfl, hread⟩ := ih
    have hplain : ∀ name ∈ l ++ below, Path.IsFilename name := fun name hmem ↦
      (List.mem_append.mp hmem).elim (hl name) (hread.isFilename name)
    have hspelled : Path.spelled (l ++ below) false = l ++ below := if_neg (by simp)
    rw [← hspelled] at hchild
    obtain ⟨name, hname, rfl⟩ := path_of_child hplain hchild
    exact ⟨below ++ [name], by simp, by simp, readAlong_concat.mpr ⟨hread, hname⟩⟩

/-- The text of an entry below the source names it. -/
theorem resolve_below {root below : Location} {separator : Bool}
    (hl : ∀ name ∈ l, Path.IsFilename name)
    (hresolve : d.fs.resolve .target ⟨true, Path.spelled l separator⟩ = .ok root)
    (hread : d.ReadAlong root below) (hne : below ≠ []) :
    d.fs.resolve .entry (Path.ofText (Path.string ⟨true, l ++ below⟩)) = .ok (root ++ below) := by
  have hnames : ∀ name ∈ l ++ below, Path.IsFilename name := fun name hmem ↦
    (List.mem_append.mp hmem).elim (hl name) (hread.isFilename name)
  obtain ⟨-, hlead⟩ := FileSystem.resolve_eq_ok_iff.mp (FileSystem.resolve_unspelled hresolve)
  rw [Path.ofText_string hnames]
  refine FileSystem.resolve_eq_ok_iff.mpr
    ⟨rfl, FileSystem.leads_append hlead (fun links ↦ ?_) hne⟩
  exact FileSystem.leads_entry (Path.plain_of_isFilename hread.isFilename) hne (hread.node hne)

end Disk

/-! ### The list -/

/-- What a crawl that ends so has found below its source directory. -/
structure Lists (d : Disk) (source : Path) (found : List DirectoryEntry)
    (failure : Option FilesystemError) : Prop where
  /-- The text of an entry names it. -/
  named : ∀ e ∈ found, d.fs.resolve .entry (Path.ofText e.path.string) = .ok e.location
  /-- No entry is behind itself or what is in it. -/
  ordered : (found.map DirectoryEntry.location).Pairwise fun l l' ↦ ¬ l' <+: l
  /-- Everything that is read is found. -/
  complete : failure = none → ∃ root, d.fs.resolve .target source = .ok root ∧
    d.fs.nodes root = some .directory ∧ ∀ l, l ∈ found.map DirectoryEntry.location ↔
      ∃ below ≠ [], l = root ++ below ∧ d.ReadAlong root below
  /-- A failure is that of the source or of a directory that was found, and not skipped. -/
  failed : ∀ e, failure = some e → e.code ≠ Errc.permissionDenied ∧
    ((∀ root, d.fs.resolve .target source = .ok root → d.fs.nodes root ≠ some .directory) ∨
      ∃ l count, (d.fs.resolve .target source = .ok l ∨
        l ∈ found.map DirectoryEntry.location) ∧ d.stops l = some (count, e))

namespace Lists

variable {d : Disk} {source : Path} {found : List DirectoryEntry}
  {failure : Option FilesystemError}

theorem of_yields (hsource : IsNormal source)
    (h : Yields d.descend (d.descendFrom source) found failure) : Lists d source found failure := by
  obtain ⟨l, separator, rfl, hl⟩ := hsource
  rcases d.descendFrom_cases ⟨true, Path.spelled l separator⟩ with
    ⟨root, hresolve, hnode, hfrom⟩ | ⟨hroot, e, hfrom, hcode⟩
  · rw [hfrom] at h
    have hfound : ∀ e ∈ found, ∃ below ≠ [],
        e = ⟨⟨true, l ++ below⟩, root ++ below⟩ ∧ d.ReadAlong root below :=
      fun e he ↦ Disk.path_of_reached hl (h.reached he)
    have hwalk : Yields d.descendAt (d.descendAt root) (found.map DirectoryEntry.location)
        failure := by
      have hmap := h.map Disk.descendAt_location
      rwa [← Disk.descendAt_location] at hmap
    refine ⟨fun e he ↦ ?_, ?_, fun hnone ↦ ?_, fun e hsome ↦ ?_⟩
    · obtain ⟨below, hne, rfl, hread⟩ := hfound e he
      exact Disk.resolve_below hl hresolve hread hne
    · refine (hwalk.pairwise Disk.isForest_descendAt
        (Disk.isForest_descendAt.apart root)).imp_of_mem fun {x y} hx hy hbehind hpre ↦ ?_
      obtain ⟨below, -, rfl, hread⟩ := Disk.reached_descendAt.mp (hwalk.reached hx)
      obtain ⟨above, -, rfl, -⟩ := Disk.reached_descendAt.mp (hwalk.reached hy)
      obtain ⟨more, rfl⟩ := (List.prefix_append_right_inj root).mp hpre
      exact hbehind (Disk.below_descendAt.mpr ⟨more, by simp, hread.rest⟩)
    · exact ⟨root, hresolve, hnode, fun l' ↦
        (hwalk.mem_iff hnone).trans Disk.reached_descendAt⟩
    · rcases h.failure_of hsome with hfailure | ⟨v, hv, hfailure⟩
      · obtain ⟨hcode, count, hstops⟩ := Disk.stops_of_failure hfailure
        exact ⟨hcode, Or.inr ⟨root, count, Or.inl hresolve, hstops⟩⟩
      · obtain ⟨hcode, count, hstops⟩ := Disk.stops_of_failure hfailure
        exact ⟨hcode, Or.inr ⟨v.location, count, Or.inr (List.mem_map_of_mem hv), hstops⟩⟩
  · rw [hfrom] at h
    cases h
    exact ⟨by simp, by simp, by simp, fun e' he ↦ by
      obtain rfl := Option.some.inj he
      exact ⟨hcode, Or.inl hroot⟩⟩

/-- Where nothing stops, the list is all that is below the source. -/
theorem mem_iff_of_stops (h : Lists d source found none) (hstops : ∀ l, d.stops l = none) :
    ∃ root, d.fs.resolve .target source = .ok root ∧
      ∀ l, l ∈ found.map DirectoryEntry.location ↔
        ∃ below ≠ [], l = root ++ below ∧ d.fs.nodes l ≠ none := by
  obtain ⟨root, hresolve, -, hmem⟩ := h.complete rfl
  refine ⟨root, hresolve, fun l ↦ (hmem l).trans ?_⟩
  constructor
  · rintro ⟨below, hne, rfl, hread⟩
    exact ⟨below, hne, rfl, hread.node hne⟩
  · rintro ⟨below, hne, rfl, hnode⟩
    exact ⟨below, hne, rfl, Disk.readAlong_of_node hstops hnode⟩

end Lists

/-! ### Crawls -/

section Crawl

variable {what : FilesystemError → String} {d : Disk} {self : DirectoryCrawler}

theorem crawlRecursively_of_yields {found : List DirectoryEntry} {failure : Option FilesystemError}
    (h : Yields d.descend (d.descendFrom self.sourceDirectory) found failure) (out : List String) :
    ∃ n, ∀ fuel ≥ n, self.crawlRecursively what d fuel out =
      some (out ++ found.map (fun e ↦ e.path.string), self.finish what failure) := by
  obtain ⟨n, hn⟩ := h.exists_fuel
  refine ⟨n, fun fuel hfuel ↦ ?_⟩
  rw [DirectoryCrawler.crawlRecursively, Disk.recursiveDirectoryIterator, hn fuel hfuel]
  rfl

/-- Without the failures the walk goes on. -/
theorem exists_mended {p : Path} {root : Location} {found : List DirectoryEntry}
    {failure : Option FilesystemError} (hresolve : d.fs.resolve .target p = .ok root)
    (hnode : d.fs.nodes root = some .directory)
    (h : Yields d.descend (d.descendFrom p) found failure) :
    ∃ more, Yields d.mended.descend (d.mended.descendFrom p) (found ++ more) none := by
  have hfrom : d.descendFrom p = d.descend ⟨p, root⟩ := by
    rw [Disk.descendFrom, Disk.openDirectory, hresolve]
    simp [hnode, Disk.descend]
  have hfrom' : d.mended.descendFrom p = d.mended.descend ⟨p, root⟩ := by
    have hresolve' : d.mended.fs.resolve .target p = .ok root := hresolve
    have hnode' : d.mended.fs.nodes root = some .directory := hnode
    rw [Disk.descendFrom, Disk.openDirectory, hresolve']
    simp [hnode', Disk.descend]
  obtain ⟨whole, r, hwhole⟩ :=
    exists_yields Disk.wellFounded_descend (d.mended.descend ⟨p, root⟩)
  obtain rfl := hwhole.eq_none_iff.mpr
    ⟨d.failure_mended _, fun e _ ↦ d.failure_mended e⟩
  rw [hfrom] at h
  obtain ⟨⟨more, rfl⟩, -⟩ := h.isPrefix d.cut_mended hwhole (d.cut_mended _)
  exact ⟨more, hfrom' ▸ hwhole⟩

/-- Whatever a crawler has been pointed at, `crawlRecursively` appends a list of the tree below its
source directory and reports whether it is complete; when it is not, it is the beginning of the list
without the failure. -/
theorem crawlRecursively_lists (what : FilesystemError → String) (first : Request)
    (calls : List Call) {crawler : DirectoryCrawler}
    (hnamed : ∀ request ∈ first :: calls.map Call.request, request.surroundings.Named)
    (hnew : DirectoryCrawler.construct first.surroundings first.dirPathStr = .ok crawler)
    (d : Disk) (out : List String) :
    ∃ found failure,
      (∃ n, ∀ fuel ≥ n, (run what crawler calls).crawlRecursively what d fuel out =
        some (out ++ found.map (fun e ↦ e.path.string),
          (run what crawler calls).finish what failure)) ∧
      Lists d (run what crawler calls).sourceDirectory found failure ∧
      ∀ root, d.fs.resolve .target (run what crawler calls).sourceDirectory = .ok root →
        d.fs.nodes root = some .directory →
        ∃ more n, ∀ fuel ≥ n, (run what crawler calls).crawlRecursively what d.mended fuel out =
          some (out ++ (found ++ more).map (fun e ↦ e.path.string),
            (run what crawler calls).finish what none) := by
  obtain ⟨found, failure, h⟩ := exists_yields Disk.wellFounded_descend
    (d.descendFrom (run what crawler calls).sourceDirectory)
  refine ⟨found, failure, crawlRecursively_of_yields h out,
    .of_yields (isNormal_run hnamed hnew) h, fun root hresolve hnode ↦ ?_⟩
  obtain ⟨more, hwhole⟩ := exists_mended hresolve hnode h
  obtain ⟨n, hn⟩ := crawlRecursively_of_yields hwhole out
  exact ⟨more, n, hn⟩

/-- The root with the file `c` and the directory `a`, in which there are the file `x` and the
directory `b`; reading `b` fails. -/
def nestedDisk : Disk where
  fs := (((oneDirectory.fs.makeFile ["c"] ⟨by decide, rfl⟩).makeFile ["a", "x"]
    ⟨by decide, rfl⟩).makeDirectory ["a", "b"] ⟨by decide, rfl⟩)
  existsFault := none
  isDirectoryFault := none
  currentPathFault := none
  names := fun l ↦ if l = [] then ["c", "a"] else if l = ["a"] then ["x", "b"] else []
  stops := fun l ↦ if l = ["a", "b"] then
    some (0, ⟨"cannot increment recursive directory iterator", ⟨true, l⟩, .other 5⟩) else none
  height := 2
  nodup_names := fun l ↦ by split_ifs <;> simp
  mem_names_iff := fun l name ↦ by
    have hpair : ∀ parent last, l ++ [name] = [parent, last] ↔ l = [parent] ∧ name = last :=
      fun parent last ↦ show l ++ [name] = [parent] ++ [last] ↔ _ from List.append_singleton_inj
    by_cases hl : l = [] <;> by_cases hl' : l = ["a"] <;>
      simp [oneDirectory, FileSystem.makeFile, FileSystem.makeDirectory, FileSystem.empty,
        Function.update_apply, List.append_eq_singleton_iff, hpair, hl, hl'] <;>
      split_ifs <;> simp_all
  isFilename := fun l name hname ↦ by
    split_ifs at hname
    · rcases List.mem_pair.mp hname with rfl | rfl <;> decide
    · rcases List.mem_pair.mp hname with rfl | rfl <;> decide
    · simp at hname
  length_le := fun l hl ↦ by
    by_contra hlength
    have hne : ∀ l', l'.length ≤ 2 → l ≠ l' := by
      rintro l' hl' rfl
      exact hlength hl'
    exact hl (by simp [oneDirectory, FileSystem.makeFile, FileSystem.makeDirectory,
      FileSystem.empty, hne])

theorem nestedDisk_named : nestedDisk.toSurroundings.Named := by
  simp [Surroundings.Named, nestedDisk, oneDirectory, FileSystem.makeFile,
    FileSystem.makeDirectory, FileSystem.empty]

example : (⟨⟨true, []⟩, [⟨true, []⟩], "No Error Set"⟩ : DirectoryCrawler).crawlRecursively
    FilesystemError.whatArg nestedDisk 8 ["old"] =
      some (["old", "/c", "/a", "/a/x", "/a/b"],
        ⟨⟨true, []⟩, [⟨true, []⟩], "cannot increment recursive directory iterator"⟩, .failure) := by
  decide

/-- A crawler of `a` that is pointed at the root. -/
theorem crawlRecursively_lists_example : ∃ crawler,
    DirectoryCrawler.construct nestedDisk.toSurroundings "/a" = .ok crawler ∧
      let self := run FilesystemError.whatArg crawler
        [⟨.changeDirectory, ⟨nestedDisk.toSurroundings, "/"⟩⟩]
      ∃ found failure,
        (∃ n, ∀ fuel ≥ n, self.crawlRecursively FilesystemError.whatArg nestedDisk fuel ["old"] =
          some (["old"] ++ found.map (fun e ↦ e.path.string),
            self.finish FilesystemError.whatArg failure)) ∧
        Lists nestedDisk self.sourceDirectory found failure ∧
        ∃ more n, ∀ fuel ≥ n,
          self.crawlRecursively FilesystemError.whatArg nestedDisk.mended fuel ["old"] =
            some (["old"] ++ (found ++ more).map (fun e ↦ e.path.string),
              self.finish FilesystemError.whatArg none) := by
  refine ⟨_, rfl, ?_⟩
  obtain ⟨found, failure, hcrawl, hlists, hmended⟩ :=
    crawlRecursively_lists FilesystemError.whatArg ⟨nestedDisk.toSurroundings, "/a"⟩
      [⟨.changeDirectory, ⟨nestedDisk.toSurroundings, "/"⟩⟩]
      (by simp [nestedDisk_named]) rfl nestedDisk ["old"]
  exact ⟨found, failure, hcrawl, hlists, hmended [] (by decide) (by decide)⟩

/-! ### The first level -/

end Crawl

end WsServer.Crawler
