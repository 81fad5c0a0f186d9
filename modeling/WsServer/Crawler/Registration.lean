import WsServer.Crawler.Model
import WsServer.Foundations.Runs

/-!
# The directories that a crawler has registered

`containsPath` compares normal forms, and a directory other than the root has two of them, with a
separator at its end and without (`validatedDirectoryPath_eq_ok_iff`). The list of a crawler holds
every normal form it has met once (`Registers`); so a directory is in it twice exactly when it has
been spelled in both ways (`registered_once_iff`).
-/

set_option autoImplicit false
set_option relaxedAutoImplicit false

namespace WsServer.Crawler

open Foundations

/-! ### The library without links -/

/-- No links, and a working directory whose names are names of entries. -/
structure Surroundings.Linkless (w : Surroundings) : Prop where
  symbolic : ∀ l path, w.fs.nodes l ≠ some (.link path)
  workingDirectory : Path.Plain w.fs.workingDirectory

/-- The path leads to the directory `l`, and no system call fails. -/
structure Accepts (w : Surroundings) (dirPathStr : String) (l : Location) : Prop where
  resolve : w.fs.resolve .target (Path.ofText dirPathStr) = .ok l
  directory : w.fs.nodes l = some .directory
  existsFault : w.existsFault = none
  isDirectoryFault : w.isDirectoryFault = none
  currentPathFault : (Path.ofText dirPathStr).absolute = false → w.currentPathFault = none

/-- The path ends in a separator, in `"."` or in `".."`. -/
def EndsOpen (dirPathStr : String) : Bool := Path.endsSpecial (Path.ofText dirPathStr).names

/-- Where an absolute path leads. -/
def directoryOf (p : Path) : Location := lexically [] p.names

section Validated

variable {w : Surroundings} {dirPathStr : String} {p : Path} {l : Location}

theorem status_eq_ok_directory_iff {fault : Option Errc} :
    status w.fs fault p = .ok (some .directory) ↔ fault = none ∧
      ∃ l, w.fs.resolve .target p = .ok l ∧ w.fs.nodes l = some .directory := by
  unfold status
  rcases fault with _ | code
  · rcases w.fs.resolve .target p with (_ | _ | _) | l <;> simp
  · simp

theorem fault_of_status {fault : Option Errc} {found : Option Node}
    (hstatus : status w.fs fault p = .ok found) : fault = none := by
  unfold status at hstatus
  rcases fault with _ | code
  · rfl
  · cases hstatus

theorem currentPathFault_of_absolute {q : Path} (habsolute : absolute w p = .ok q)
    (hp : p.absolute = false) : w.currentPathFault = none := by
  by_contra hfault
  obtain ⟨code, hfault⟩ := Option.ne_none_iff_exists'.mp hfault
  cases hempty : p.isEmpty <;> simp [absolute, hempty, hp, hfault] at habsolute

theorem Accepts.plain (h : Accepts w dirPathStr l) (hw : w.Linkless) : Path.Plain l := by
  obtain ⟨-, hlead⟩ := FileSystem.resolve_eq_ok_iff.mp h.resolve
  rw [hlead.eq_lexically hw.symbolic]
  split_ifs
  · exact lexically_plain (by simp [Path.Plain]) _
  · exact lexically_plain hw.workingDirectory _

/-- The absolute path leads to the same directory. -/
theorem Accepts.absolute (h : Accepts w dirPathStr l) (hw : w.Linkless) :
    ∃ names, absolute w (Path.ofText dirPathStr) = .ok ⟨true, names⟩ ∧ lexically [] names = l ∧
      Path.endsSpecial names = EndsOpen dirPathStr := by
  obtain ⟨hempty, hlead⟩ := FileSystem.resolve_eq_ok_iff.mp h.resolve
  have hl := hlead.eq_lexically hw.symbolic
  rcases hp : Path.ofText dirPathStr with ⟨_ | _, names⟩
  · have hfault := h.currentPathFault (by rw [hp])
    have hnames : names ≠ [] := by
      rintro rfl
      simp [hp, Path.isEmpty] at hempty
    refine ⟨w.fs.workingDirectory ++ names, ?_, ?_, ?_⟩
    · simp [Crawler.absolute, Path.isEmpty, hnames, hfault]
    · rw [lexically_append, lexically_of_plain hw.workingDirectory, List.nil_append, hl, hp]
      rfl
    · rw [EndsOpen, hp, Path.endsSpecial, Path.endsSpecial, List.getLast?_append_of_ne_nil _ hnames]
  · refine ⟨names, rfl, ?_, ?_⟩
    · rw [hl, hp]
      rfl
    · rw [EndsOpen, hp]

theorem validatedDirectoryPath_cases : validatedDirectoryPath w dirPathStr = .ok p ↔
    (∃ node, status w.fs w.existsFault (Path.ofText dirPathStr) = .ok (some node)) ∧
      status w.fs w.isDirectoryFault (Path.ofText dirPathStr) = .ok (some .directory) ∧
      ∃ q, absolute w (Path.ofText dirPathStr) = .ok q ∧ q.lexicallyNormal = p := by
  simp only [validatedDirectoryPath, bind_eq_ok_iff, ite_throw_bind_eq_ok_iff, not_not, ne_eq]
  constructor
  · rintro ⟨_ | node, hexists, hfound, _, hdirectory, rfl, q, habsolute, hnormal⟩
    · exact absurd rfl hfound
    · exact ⟨⟨node, hexists⟩, hdirectory, q, habsolute, Except.ok.inj hnormal⟩
  · rintro ⟨⟨node, hexists⟩, hdirectory, q, habsolute, rfl⟩
    exact ⟨some node, hexists, by simp, _, hdirectory, rfl, q, habsolute, rfl⟩

/-- What `validatedDirectoryPath` returns is the directory, with a separator behind it when the path
ends open. -/
theorem validatedDirectoryPath_eq_ok_iff (hw : w.Linkless) :
    validatedDirectoryPath w dirPathStr = .ok p ↔
      ∃ l, Accepts w dirPathStr l ∧ p = ⟨true, Path.spelled l (EndsOpen dirPathStr)⟩ := by
  rw [validatedDirectoryPath_cases]
  constructor
  · rintro ⟨⟨node, hexists⟩, hdirectory, q, habsolute, rfl⟩
    obtain ⟨hfault, l, hresolve, hnode⟩ := status_eq_ok_directory_iff.mp hdirectory
    have haccepts : Accepts w dirPathStr l :=
      { resolve := hresolve
        directory := hnode
        existsFault := fault_of_status hexists
        isDirectoryFault := hfault
        currentPathFault := currentPathFault_of_absolute habsolute }
    obtain ⟨names, habsolute', hlead, hends⟩ := haccepts.absolute hw
    obtain rfl : q = ⟨true, names⟩ := Except.ok.inj (habsolute.symm.trans habsolute')
    exact ⟨l, haccepts, by rw [Path.lexicallyNormal_absolute, hlead, hends]⟩
  · rintro ⟨l, haccepts, rfl⟩
    obtain ⟨names, habsolute, hlead, hends⟩ := haccepts.absolute hw
    refine ⟨⟨.directory, ?_⟩, ?_, ⟨true, names⟩, habsolute, ?_⟩
    · exact status_eq_ok_directory_iff.mpr ⟨haccepts.existsFault, l, haccepts.resolve,
        haccepts.directory⟩
    · exact status_eq_ok_directory_iff.mpr ⟨haccepts.isDirectoryFault, l, haccepts.resolve,
        haccepts.directory⟩
    · rw [Path.lexicallyNormal_absolute, hlead, hends]

theorem directoryOf_spelled (hl : Path.Plain l) (separator : Bool) :
    directoryOf ⟨true, Path.spelled l separator⟩ = l := by
  unfold directoryOf Path.spelled
  split_ifs
  · rw [lexically_append, lexically_of_plain hl]
    rfl
  · rw [lexically_of_plain hl, List.nil_append]

/-- The path that is registered leads where the one that was given leads. -/
theorem resolve_of_validated (hw : w.Linkless)
    (hvalid : validatedDirectoryPath w dirPathStr = .ok p) :
    w.fs.resolve .target (Path.ofText dirPathStr) = .ok (directoryOf p) ∧
      w.fs.resolve .target p = .ok (directoryOf p) := by
  obtain ⟨l, haccepts, rfl⟩ := (validatedDirectoryPath_eq_ok_iff hw).mp hvalid
  have hl := haccepts.plain hw
  rw [directoryOf_spelled hl]
  exact ⟨haccepts.resolve, FileSystem.resolve_spelled hl haccepts.directory _⟩

end Validated

/-! ### Calls -/

/-- A path, with what the call finds. -/
structure Request where
  surroundings : Surroundings
  dirPathStr : String

/-- The path that a request registers. -/
def Request.path (request : Request) : Except FilesystemError Path :=
  validatedDirectoryPath request.surroundings request.dirPathStr

inductive Method
  | changeDirectory
  | newDirectory
  deriving DecidableEq

structure Call where
  method : Method
  request : Request

namespace Call

def apply (what : FilesystemError → String) (self : DirectoryCrawler) (call : Call) :
    DirectoryCrawler × ExitCode :=
  match call.method with
  | .changeDirectory =>
    self.changeDirectory what call.request.surroundings call.request.dirPathStr
  | .newDirectory => self.newDirectory what call.request.surroundings call.request.dirPathStr

variable {what : FilesystemError → String} {self : DirectoryCrawler} {call : Call}

/-- Both methods do the same. -/
theorem apply_eq : call.apply what self =
    match call.request.path with
    | .ok path => (⟨path, if path ∈ self.sourceDirectoryList then self.sourceDirectoryList
        else self.sourceDirectoryList ++ [path], "No Error Set"⟩, .success)
    | .error e => ({ self with lastError := what e }, .failure) := by
  rcases call with ⟨method, request⟩
  rcases hpath : validatedDirectoryPath request.surroundings request.dirPathStr with e | path
  · cases method <;>
      simp only [apply, DirectoryCrawler.changeDirectory, DirectoryCrawler.newDirectory,
        Request.path, hpath]
  · by_cases hmem : path ∈ self.sourceDirectoryList <;> cases method <;>
      simp [apply, DirectoryCrawler.changeDirectory, DirectoryCrawler.newDirectory, Request.path,
        containsPath, hpath, hmem]

end Call

section Runs

variable {what : FilesystemError → String}

def run (what : FilesystemError → String) (self : DirectoryCrawler) (calls : List Call) :
    DirectoryCrawler :=
  calls.foldl (fun self call ↦ (call.apply what self).1) self

/-- The crawler has met the paths `met`, and has each of them once. -/
structure Registers (crawler : DirectoryCrawler) (met : List Path) : Prop where
  nodup : crawler.sourceDirectoryList.Nodup
  mem_iff : ∀ p, p ∈ crawler.sourceDirectoryList ↔ p ∈ met
  source : crawler.sourceDirectory ∈ crawler.sourceDirectoryList

theorem Registers.apply {crawler : DirectoryCrawler} {met : List Path} (h : Registers crawler met)
    (call : Call) : Registers (call.apply what crawler).1
      (met ++ call.request.path.toOption.toList) := by
  rw [Call.apply_eq]
  rcases call.request.path with e | path
  · exact ⟨h.nodup, by simpa [Except.toOption] using h.mem_iff, h.source⟩
  by_cases hmem : path ∈ crawler.sourceDirectoryList
  · have hmet := (h.mem_iff path).mp hmem
    refine ⟨by simpa [hmem] using h.nodup, fun p ↦ ?_, by simp [hmem]⟩
    simp only [hmem, if_true, h.mem_iff, Except.toOption, Option.toList_some, List.mem_append,
      List.mem_singleton]
    exact ⟨Or.inl, fun hp ↦ hp.elim id fun heq ↦ heq ▸ hmet⟩
  · refine ⟨?_, fun p ↦ ?_, by simp [hmem]⟩
    · simpa [hmem] using h.nodup.concat hmem
    · simp [hmem, h.mem_iff, Except.toOption]

/-- A crawler has met the normal forms of all paths that it was given. -/
theorem registers_run {first : Request} {crawler : DirectoryCrawler}
    (hnew : DirectoryCrawler.construct first.surroundings first.dirPathStr = .ok crawler)
    (calls : List Call) : Registers (run what crawler calls)
      ((first :: calls.map Call.request).filterMap fun request ↦ request.path.toOption) := by
  induction calls using List.reverseRecOn with
  | nil =>
    obtain ⟨path, hpath, hcrawler⟩ := bind_eq_ok_iff.mp hnew
    cases hcrawler
    have hfirst : first.path = .ok path := hpath
    exact ⟨by simp [run], by simp [run, hfirst, Except.toOption], by simp [run]⟩
  | append_singleton calls call ih =>
    have hcall : Registers (call.apply what (run what crawler calls)).1 _ := ih.apply call
    rw [run, List.foldl_concat, List.map_append, ← List.cons_append, List.filterMap_append]
    rcases hpath : call.request.path with e | path <;>
      simpa [run, hpath, Except.toOption] using hcall

/-- A failing call changes nothing but `lastError`. -/
theorem Call.apply_failure {crawler : DirectoryCrawler} (call : Call)
    (hfailure : (call.apply what crawler).2 = .failure) : (call.apply what crawler).1 =
      { crawler with lastError := (call.apply what crawler).1.lastError } := by
  rw [Call.apply_eq] at hfailure ⊢
  rcases hpath : call.request.path with e | path
  · rfl
  · simp [hpath] at hfailure

/-- Requests that lead to one directory below the root are spelled with the same kind of ending. -/
def SpelledAlike (requests : List Request) : Prop :=
  ∀ r ∈ requests, ∀ r' ∈ requests, ∀ l ≠ [], Accepts r.surroundings r.dirPathStr l →
    Accepts r'.surroundings r'.dirPathStr l → EndsOpen r.dirPathStr = EndsOpen r'.dirPathStr

/-- Normal forms of requests, each once, are normal forms of different directories exactly when the
requests are spelled alike. -/
theorem nodup_directories_iff {requests : List Request} {paths : List Path}
    (hlinks : ∀ request ∈ requests, request.surroundings.Linkless) (hnodup : paths.Nodup)
    (hmem : ∀ p, p ∈ paths ↔ ∃ r ∈ requests, ∃ l, Accepts r.surroundings r.dirPathStr l ∧
      p = ⟨true, Path.spelled l (EndsOpen r.dirPathStr)⟩) :
    (paths.map directoryOf).Nodup ↔ SpelledAlike requests := by
  rw [List.nodup_map_iff_inj_on hnodup]
  constructor
  · intro hinj r hr r' hr' l hl haccepts haccepts'
    have hplain := haccepts.plain (hlinks r hr)
    have heq := hinj _ ((hmem _).mpr ⟨r, hr, l, haccepts, rfl⟩) _
      ((hmem _).mpr ⟨r', hr', l, haccepts', rfl⟩)
      (by rw [directoryOf_spelled hplain, directoryOf_spelled hplain])
    have hspelled := (Path.spelled_eq_spelled hplain hplain).mp (congrArg Path.names heq)
    exact hspelled.2.resolve_left hl
  · intro halike p hp q hq hdirectory
    obtain ⟨r, hr, l, haccepts, rfl⟩ := (hmem p).mp hp
    obtain ⟨r', hr', l', haccepts', rfl⟩ := (hmem q).mp hq
    have hplain := haccepts.plain (hlinks r hr)
    rw [directoryOf_spelled hplain, directoryOf_spelled (haccepts'.plain (hlinks r' hr'))]
      at hdirectory
    subst hdirectory
    refine congrArg (Foundations.Path.mk true)
      ((Path.spelled_eq_spelled hplain hplain).mpr ⟨rfl, ?_⟩)
    by_cases hl : l = []
    · exact Or.inl hl
    · exact Or.inr (halike r hr r' hr' l hl haccepts haccepts')

/-- No directory is registered twice, the source directory is registered, and a failing call changes
nothing but `lastError`. -/
structure RegisteredOnce (what : FilesystemError → String) (crawler : DirectoryCrawler) :
    Prop where
  once : (crawler.sourceDirectoryList.map directoryOf).Nodup
  source : crawler.sourceDirectory ∈ crawler.sourceDirectoryList
  failure : ∀ call : Call, (call.apply what crawler).2 = .failure →
    (call.apply what crawler).1 =
      { crawler with lastError := (call.apply what crawler).1.lastError }

/-- A directory is registered once exactly when it is always spelled with a separator, `"."` or
`".."` at the end or never. -/
theorem registered_once_iff (what : FilesystemError → String) (first : Request)
    (calls : List Call) {crawler : DirectoryCrawler}
    (hlinks : ∀ request ∈ first :: calls.map Call.request, request.surroundings.Linkless)
    (hnew : DirectoryCrawler.construct first.surroundings first.dirPathStr = .ok crawler) :
    RegisteredOnce what (run what crawler calls) ↔
      SpelledAlike (first :: calls.map Call.request) := by
  have hregisters : Registers (run what crawler calls) _ := registers_run hnew calls
  have honce := nodup_directories_iff hlinks hregisters.nodup fun p ↦ by
    rw [hregisters.mem_iff, List.mem_filterMap]
    refine exists_congr fun r ↦ and_congr_right fun hr ↦ ?_
    rw [← validatedDirectoryPath_eq_ok_iff (hlinks r hr)]
    show r.path.toOption = some p ↔ r.path = .ok p
    rcases r.path with e | path <;> simp [Except.toOption]
  constructor
  · exact fun h ↦ honce.mp h.once
  · exact fun halike ↦ ⟨honce.mpr halike, hregisters.source, Call.apply_failure⟩

/-- The root and its directory `a`, where every system call works. -/
def oneDirectory : Surroundings where
  fs := FileSystem.empty.makeDirectory ["a"] ⟨by simp [FileSystem.empty], rfl⟩
  existsFault := none
  isDirectoryFault := none
  currentPathFault := none

theorem oneDirectory_linkless : oneDirectory.Linkless where
  symbolic := fun l path ↦ by
    by_cases hl : l = ["a"] <;> by_cases hroot : l = [] <;>
      simp [oneDirectory, FileSystem.makeDirectory, FileSystem.empty, hl, hroot]
  workingDirectory := by simp [Path.Plain, oneDirectory, FileSystem.makeDirectory, FileSystem.empty]

/-- An absolute path and two relative ones, none with a separator at its end. -/
theorem registered_once_iff_example : ∃ crawler,
    DirectoryCrawler.construct oneDirectory "/a" = .ok crawler ∧
      RegisteredOnce FilesystemError.whatArg (run FilesystemError.whatArg crawler
        [⟨.changeDirectory, ⟨oneDirectory, "a"⟩⟩, ⟨.newDirectory, ⟨oneDirectory, ".//a"⟩⟩]) := by
  refine ⟨_, rfl, (registered_once_iff FilesystemError.whatArg ⟨oneDirectory, "/a"⟩
    [⟨.changeDirectory, ⟨oneDirectory, "a"⟩⟩, ⟨.newDirectory, ⟨oneDirectory, ".//a"⟩⟩]
    (by simp [oneDirectory_linkless]) rfl).mpr ?_⟩
  have hclosed : ∀ r ∈ [⟨oneDirectory, "/a"⟩, ⟨oneDirectory, "a"⟩, ⟨oneDirectory, ".//a"⟩],
      EndsOpen (Request.dirPathStr r) = false := by
    simp only [List.forall_mem_cons, List.not_mem_nil, false_implies, implies_true, and_true]
    decide
  intro r hr r' hr' l _ _ _
  rw [hclosed r hr, hclosed r' hr']

/-- A separator makes a new directory. -/
theorem registered_twice : ¬ ∀ (what : FilesystemError → String) (first : Request)
    (calls : List Call) (crawler : DirectoryCrawler),
    (∀ request ∈ first :: calls.map Call.request, request.surroundings.Linkless) →
    DirectoryCrawler.construct first.surroundings first.dirPathStr = .ok crawler →
    RegisteredOnce what (run what crawler calls) := by
  intro hall
  have honce := (hall FilesystemError.whatArg ⟨oneDirectory, "/a"⟩
    [⟨.changeDirectory, ⟨oneDirectory, "/a/"⟩⟩] ⟨⟨true, ["a"]⟩, [⟨true, ["a"]⟩], "No Error Set"⟩
    (by simp [oneDirectory_linkless]) rfl).once
  have hlist : (run FilesystemError.whatArg ⟨⟨true, ["a"]⟩, [⟨true, ["a"]⟩], "No Error Set"⟩
      [⟨.changeDirectory, ⟨oneDirectory, "/a/"⟩⟩]).sourceDirectoryList.map directoryOf =
      [["a"], ["a"]] := rfl
  rw [hlist] at honce
  exact absurd honce (by decide)

end Runs

end WsServer.Crawler
