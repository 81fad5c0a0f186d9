import WsServer.Crawler.Model

/-!
# Repeated crawls into one output

Whatever `crawl` has read when it throws stays in the output, and so do the rows that it has added.
`crawls_rows` is what any number of crawls make of the rows. `retried_iff` says when a failed one
leaves nothing behind: there was a row for every directory, and nothing was read.
-/

set_option autoImplicit false
set_option relaxedAutoImplicit false

namespace WsServer.Crawler

open Foundations Foundations.Rows

variable {Entry : Type} {iterate : Path → Iteration Entry} {dirs : List Path}
  {rows : List (List Entry)}

/-! ### One crawl -/

/-- The directories up to the first one whose iteration fails. -/
def visited (iterate : Path → Iteration Entry) : List Path → List Path
  | [] => []
  | dir :: dirs =>
    match (iterate dir).failure with
    | some _ => [dir]
    | none => dir :: visited iterate dirs

/-- What is read in each of them. -/
def readings (iterate : Path → Iteration Entry) (dirs : List Path) : List (List Entry) :=
  (visited iterate dirs).map fun dir ↦ (iterate dir).read

/-- The iteration of one of the directories fails. -/
def Fails (iterate : Path → Iteration Entry) (dirs : List Path) : Prop :=
  ∃ dir ∈ dirs, (iterate dir).failure ≠ none

/-- The loop adds to every row what is read in its directory. -/
theorem crawlLoop_spec {i : ℕ} (hrows : i + dirs.length ≤ rows.length) :
    (crawlLoop iterate i dirs rows).1.length = rows.length ∧
      (∀ j, row (crawlLoop iterate i dirs rows).1 j =
        row rows j ++ rowFrom i (readings iterate dirs) j) ∧
      ((crawlLoop iterate i dirs rows).2 ≠ none ↔ Fails iterate dirs) := by
  induction dirs generalizing i rows with
  | nil => simp [crawlLoop, readings, visited, Fails]
  | cons dir dirs ih =>
    rw [List.length_cons] at hrows
    have hi : i < rows.length := by omega
    unfold crawlLoop
    rcases hfailure : (iterate dir).failure with _ | ⟨count, e⟩
    · obtain ⟨hlength, hrow, hfails⟩ :=
        @ih (rows.modify i (· ++ (iterate dir).read)) (i + 1) (by rw [List.length_modify]; omega)
      have hreadings : readings iterate (dir :: dirs) =
          (iterate dir).read :: readings iterate dirs := by
        simp [readings, visited, hfailure]
      refine ⟨by rw [hlength, List.length_modify], fun j ↦ ?_, ?_⟩
      · rw [hrow j, row_modify hi, hreadings, rowFrom_cons, List.append_assoc]
      · rw [hfails]
        simp [Fails, hfailure]
    · have hreadings : readings iterate (dir :: dirs) = [(iterate dir).read] := by
        simp [readings, visited, hfailure]
      refine ⟨by simp, fun j ↦ ?_, ?_⟩
      · rw [row_modify hi, hreadings, rowFrom_cons, rowFrom_nil, List.append_nil]
      · simp [Fails, hfailure]

theorem visited_of_not_fails (hfails : ¬ Fails iterate dirs) : visited iterate dirs = dirs := by
  induction dirs with
  | nil => rfl
  | cons dir dirs ih =>
    simp only [Fails, List.mem_cons, not_exists, not_and, forall_eq_or_imp, not_not] at hfails
    simp [visited, hfails.1, ih (by simpa [Fails] using hfails.2)]

/-- When no iteration fails, everything is read. -/
theorem row_readings_of_not_fails (hfails : ¬ Fails iterate dirs) {i : ℕ} (hi : i < dirs.length) :
    row (readings iterate dirs) i = (iterate dirs[i]).entries := by
  have hnone : (iterate dirs[i]).failure = none := by
    by_contra hne
    exact hfails ⟨dirs[i], List.getElem_mem hi, hne⟩
  rw [readings, visited_of_not_fails hfails, row_of_lt (by simpa using hi), List.getElem_map]
  simp [Iteration.read, hnone]

theorem length_visited_le : (visited iterate dirs).length ≤ dirs.length := by
  induction dirs with
  | nil => exact le_rfl
  | cons dir dirs ih =>
    unfold visited
    split
    · simp
    · simpa using ih

theorem row_readings_of_length_le {i : ℕ} (hi : dirs.length ≤ i) :
    row (readings iterate dirs) i = [] := by
  have hlength : (readings iterate dirs).length ≤ i := by
    rw [readings, List.length_map]
    exact length_visited_le.trans hi
  simp [row, hlength]

section Crawl

variable {what : FilesystemError → String} {self : DirectoryCrawler}

/-- What one crawl makes of the rows, and when it fails. -/
theorem crawl_spec : (self.crawl what iterate rows).2.1.length =
      max rows.length self.sourceDirectoryList.length ∧
    (∀ i, row (self.crawl what iterate rows).2.1 i =
      row rows i ++ row (readings iterate self.sourceDirectoryList) i) ∧
    ((self.crawl what iterate rows).2.2 = .failure ↔ Fails iterate self.sourceDirectoryList) ∧
    (self.crawl what iterate rows).1.sourceDirectoryList = self.sourceDirectoryList := by
  have hgrown : (if rows.length < self.sourceDirectoryList.length then
      resize rows self.sourceDirectoryList.length else rows) =
      resize rows self.sourceDirectoryList.length := by
    split_ifs with hlt
    · rfl
    · exact (resize_of_length_le (Nat.le_of_not_lt hlt)).symm
  have hloop := @crawlLoop_spec Entry iterate self.sourceDirectoryList
    (resize rows self.sourceDirectoryList.length) 0 (by rw [length_resize]; omega)
  simp only [length_resize, row_resize, rowFrom_zero] at hloop
  obtain ⟨hlength, hrow, hfails⟩ := hloop
  unfold DirectoryCrawler.crawl
  simp only [hgrown]
  rcases hrun : crawlLoop iterate 0 self.sourceDirectoryList
    (resize rows self.sourceDirectoryList.length) with ⟨rows', _ | e⟩
  · simp only [hrun] at hlength hrow hfails
    exact ⟨hlength, hrow, by simpa using hfails, rfl⟩
  · simp only [hrun] at hlength hrow hfails
    exact ⟨hlength, hrow, by simpa using hfails, rfl⟩

/-- Nothing is read before the iteration of a directory fails. -/
def ReadsNothing (iterate : Path → Iteration Entry) (dirs : List Path) : Prop :=
  ∀ dir ∈ visited iterate dirs, (iterate dir).read = []

theorem row_readings_eq_nil_iff :
    (∀ i, row (readings iterate dirs) i = []) ↔ ReadsNothing iterate dirs := by
  unfold readings ReadsNothing
  constructor
  · intro hrow dir hdir
    obtain ⟨i, hi, rfl⟩ := List.getElem_of_mem hdir
    have hread := hrow i
    rwa [row_of_lt (by simpa using hi), List.getElem_map] at hread
  · intro hread i
    by_cases hi : i < (visited iterate dirs).length
    · rw [row_of_lt (by simpa using hi), List.getElem_map]
      exact hread _ (List.getElem_mem hi)
    · simp [row, Nat.le_of_not_lt hi]

/-- A crawl leaves the rows as they were. -/
theorem crawl_rows_eq_iff : (self.crawl what iterate rows).2.1 = rows ↔
    self.sourceDirectoryList.length ≤ rows.length ∧
      ReadsNothing iterate self.sourceDirectoryList := by
  obtain ⟨hlength, hrow, -, -⟩ := @crawl_spec Entry iterate rows what self
  rw [rows_eq_iff, hlength, ← row_readings_eq_nil_iff]
  refine and_congr (by omega) (forall_congr' fun i ↦ ?_)
  rw [hrow i, List.append_right_eq_self]

end Crawl

/-! ### Several crawls -/

section Retries

variable (what : FilesystemError → String) (self : DirectoryCrawler)

/-- The crawls one after the other into the same rows. -/
def crawls (rows : List (List Entry)) (attempts : List (Path → Iteration Entry)) :
    DirectoryCrawler × List (List Entry) :=
  attempts.foldl (fun s iterate ↦ ((s.1.crawl what iterate s.2).1,
    (s.1.crawl what iterate s.2).2.1)) (self, rows)

variable {what self}

theorem crawls_concat (attempts : List (Path → Iteration Entry)) :
    crawls what self rows (attempts ++ [iterate]) =
      (((crawls what self rows attempts).1.crawl what iterate (crawls what self rows attempts).2).1,
        ((crawls what self rows attempts).1.crawl what iterate
          (crawls what self rows attempts).2).2.1) := by
  rw [crawls, List.foldl_concat]
  rfl

/-- What any number of crawls make of the rows. -/
theorem crawls_rows (attempts : List (Path → Iteration Entry)) :
    (crawls what self rows attempts).1.sourceDirectoryList = self.sourceDirectoryList ∧
      (crawls what self rows attempts).2.length = (if attempts = [] then rows.length else
        max rows.length self.sourceDirectoryList.length) ∧
      ∀ i, row (crawls what self rows attempts).2 i = row rows i ++
        attempts.flatMap fun iterate ↦ row (readings iterate self.sourceDirectoryList) i := by
  induction attempts using List.reverseRecOn with
  | nil => simp [crawls]
  | append_singleton attempts iterate ih =>
    obtain ⟨hdirs, hlength, hrow⟩ := ih
    obtain ⟨hlength', hrow', -, hdirs'⟩ := @crawl_spec Entry iterate
      (crawls what self rows attempts).2 what (crawls what self rows attempts).1
    rw [crawls_concat]
    refine ⟨hdirs'.trans hdirs, ?_, fun i ↦ ?_⟩
    · rw [hlength', hlength, hdirs]
      split_ifs <;> simp_all
    · rw [hrow', hrow, hdirs, List.flatMap_append, List.flatMap_singleton, List.append_assoc]

/-- Every one of the crawls fails and leaves the rows as they were before it. -/
def LeaveRows (what : FilesystemError → String) (self : DirectoryCrawler)
    (rows : List (List Entry)) (attempts : List (Path → Iteration Entry)) : Prop :=
  ∀ pre iterate post, attempts = pre ++ iterate :: post →
    ((crawls what self rows pre).1.crawl what iterate (crawls what self rows pre).2).2 =
      ((crawls what self rows pre).2, .failure)

/-- Every row is what it was initially with the entries of its directory behind it, and there is
nothing new below the row of the last directory. -/
structure Filled (iterate : Path → Iteration Entry) (dirs : List Path)
    (rows rows' : List (List Entry)) : Prop where
  filled : ∀ i dir, dirs[i]? = some dir → rows'[i]? = some (row rows i ++ (iterate dir).entries)
  surplus : ∀ i, dirs.length ≤ i → rows'[i]? = rows[i]?

theorem leaveRows_iff {attempts : List (Path → Iteration Entry)}
    (hfails : ∀ iterate ∈ attempts, Fails iterate self.sourceDirectoryList) :
    LeaveRows what self rows attempts ↔ attempts = [] ∨
      (self.sourceDirectoryList.length ≤ rows.length ∧
        ∀ iterate ∈ attempts, ReadsNothing iterate self.sourceDirectoryList) := by
  have hone : ∀ pre iterate post, attempts = pre ++ iterate :: post →
      (((crawls what self rows pre).1.crawl what iterate (crawls what self rows pre).2).2 =
        ((crawls what self rows pre).2, .failure) ↔
      self.sourceDirectoryList.length ≤ (crawls what self rows pre).2.length ∧
        ReadsNothing iterate self.sourceDirectoryList) := by
    intro pre iterate post hsplit
    have hdirs := (@crawls_rows Entry rows what self pre).1
    obtain ⟨-, -, hexit, -⟩ := @crawl_spec Entry iterate (crawls what self rows pre).2 what
      (crawls what self rows pre).1
    rw [hdirs] at hexit
    have hrows := @crawl_rows_eq_iff Entry iterate (crawls what self rows pre).2 what
      (crawls what self rows pre).1
    rw [hdirs] at hrows
    rw [← hrows, Prod.ext_iff]
    exact and_iff_left (hexit.mpr (hfails iterate (by simp [hsplit])))
  constructor
  · intro hleave
    rcases attempts with _ | ⟨first, attempts⟩
    · exact Or.inl rfl
    · refine Or.inr ⟨((hone [] first attempts rfl).mp (hleave [] first attempts rfl)).1, ?_⟩
      intro iterate hiterate
      obtain ⟨pre, post, hsplit⟩ := List.append_of_mem hiterate
      exact ((hone pre iterate post hsplit).mp (hleave pre iterate post hsplit)).2
  · rintro hcondition pre iterate post hsplit
    rcases hcondition with rfl | ⟨hlength, hnothing⟩
    · simp at hsplit
    · refine (hone pre iterate post hsplit).mpr ⟨?_, hnothing iterate (by simp [hsplit])⟩
      rw [(crawls_rows pre).2.1]
      split_ifs <;> omega

/-- The successful crawl after the failed ones fills the rows as if it was the first exactly when
the failed ones read nothing; new empty rows do no harm. -/
theorem filled_iff {attempts : List (Path → Iteration Entry)} {last : Path → Iteration Entry}
    (hlast : ¬ Fails last self.sourceDirectoryList) :
    Filled last self.sourceDirectoryList rows (crawls what self rows (attempts ++ [last])).2 ↔
      ∀ iterate ∈ attempts, ReadsNothing iterate self.sourceDirectoryList := by
  obtain ⟨-, hlength, hrow⟩ := @crawls_rows Entry rows what self (attempts ++ [last])
  rw [if_neg (by simp)] at hlength
  simp only [List.flatMap_append, List.flatMap_singleton, ← List.append_assoc] at hrow
  have hbehind : ∀ i, self.sourceDirectoryList.length ≤ i →
      row (crawls what self rows (attempts ++ [last])).2 i = row rows i := by
    intro i hi
    rw [hrow i, row_readings_of_length_le hi, List.append_nil]
    simp [row_readings_of_length_le hi]
  constructor
  · intro hfilled iterate hiterate
    rw [← row_readings_eq_nil_iff]
    intro i
    by_cases hi : i < self.sourceDirectoryList.length
    · have hrows := hfilled.filled i _ (List.getElem?_eq_getElem hi)
      rw [getElem?_eq_some_row (by omega), Option.some_inj, hrow i,
        row_readings_of_not_fails hlast hi, List.append_left_inj,
        List.append_right_eq_self] at hrows
      exact List.flatMap_eq_nil_iff.mp hrows iterate hiterate
    · exact row_readings_of_length_le (Nat.le_of_not_lt hi)
  · intro hnothing
    refine ⟨fun i dir hdir ↦ ?_, fun i hi ↦ ?_⟩
    · obtain ⟨hi, rfl⟩ := List.getElem?_eq_some_iff.mp hdir
      have hearlier : (attempts.flatMap fun iterate ↦
          row (readings iterate self.sourceDirectoryList) i) = [] :=
        List.flatMap_eq_nil_iff.mpr fun iterate hiterate ↦
          row_readings_eq_nil_iff.mpr (hnothing iterate hiterate) i
      rw [getElem?_eq_some_row (by omega), hrow i, hearlier, List.append_nil,
        row_readings_of_not_fails hlast hi]
    · by_cases hi' : i < rows.length
      · rw [getElem?_eq_some_row (by omega), getElem?_eq_some_row hi', hbehind i hi]
      · rw [List.getElem?_eq_none (by omega), List.getElem?_eq_none (by omega)]

/-- Failed crawls leave the rows as they were, and a successful one after them fills the rows,
exactly when none has failed or there was a row for every directory and the failed ones read
nothing. -/
theorem retried_iff (what : FilesystemError → String) (self : DirectoryCrawler)
    (rows : List (List Entry)) (failed : List (Path → Iteration Entry))
    (last : Path → Iteration Entry)
    (hfailed : ∀ iterate ∈ failed, Fails iterate self.sourceDirectoryList)
    (hlast : ¬ Fails last self.sourceDirectoryList) :
    (LeaveRows what self rows failed ∧ Filled last self.sourceDirectoryList rows
      (crawls what self rows (failed ++ [last])).2) ↔
    failed = [] ∨ (self.sourceDirectoryList.length ≤ rows.length ∧
      ∀ iterate ∈ failed, ReadsNothing iterate self.sourceDirectoryList) := by
  rw [leaveRows_iff hfailed, filled_iff hlast]
  constructor
  · exact fun h ↦ h.1
  · rintro (rfl | ⟨hlength, hnothing⟩)
    · exact ⟨Or.inl rfl, by simp⟩
    · exact ⟨Or.inr ⟨hlength, hnothing⟩, hnothing⟩

/-- Twice the first of two directories cannot be opened, and there are rows for both. -/
theorem retried_iff_example : ∃ (self : DirectoryCrawler) (iterate last : Path → Iteration String),
    self.sourceDirectoryList = [⟨true, ["a"]⟩, ⟨true, ["b"]⟩] ∧
    LeaveRows FilesystemError.whatArg self [["x"], []] [iterate, iterate] ∧
      Filled last self.sourceDirectoryList [["x"], []] (crawls FilesystemError.whatArg
        self [["x"], []] ([iterate, iterate] ++ [last])).2 := by
  let self : DirectoryCrawler := ⟨⟨true, ["b"]⟩, [⟨true, ["a"]⟩, ⟨true, ["b"]⟩], "No Error Set"⟩
  let iterate : Path → Iteration String := fun dir ↦
    if dir = ⟨true, ["a"]⟩ then
      ⟨["y"], some (0, ⟨"directory iterator cannot open directory", dir, .other 13⟩)⟩
    else ⟨["z", "y"], none⟩
  let last : Path → Iteration String := fun dir ↦
    if dir = ⟨true, ["a"]⟩ then ⟨["y"], none⟩ else ⟨["z", "y"], none⟩
  refine ⟨self, iterate, last, rfl, (retried_iff FilesystemError.whatArg
    self [["x"], []] [iterate, iterate] last ?_ ?_).mpr (Or.inr ⟨?_, ?_⟩)⟩
  · simp [Fails, self, iterate]
  · simp [Fails, self, last]
  · decide
  · simp [ReadsNothing, visited, self, iterate, Iteration.read]

/-- The second directory cannot be opened at first, and the entry of the first one is there twice
after the next crawl. -/
theorem entries_twice :
    ¬ ∀ (what : FilesystemError → String) (self : DirectoryCrawler) (rows : List (List String))
      (failed : List (Path → Iteration String)) (last : Path → Iteration String),
      (∀ iterate ∈ failed, Fails iterate self.sourceDirectoryList) →
      ¬ Fails last self.sourceDirectoryList →
      LeaveRows what self rows failed ∧ Filled last self.sourceDirectoryList rows
        (crawls what self rows (failed ++ [last])).2 := by
  intro hall
  let self : DirectoryCrawler := ⟨⟨true, ["b"]⟩, [⟨true, ["a"]⟩, ⟨true, ["b"]⟩], "No Error Set"⟩
  let iterate : Path → Iteration String := fun dir ↦
    if dir = ⟨true, ["a"]⟩ then ⟨["x"], none⟩
    else ⟨[], some (0, ⟨"directory iterator cannot open directory", dir, .other 13⟩)⟩
  let last : Path → Iteration String := fun dir ↦
    if dir = ⟨true, ["a"]⟩ then ⟨["x"], none⟩ else ⟨[], none⟩
  have hfilled := (hall FilesystemError.whatArg self [[], []] [iterate] last
    (by simp [Fails, self, iterate]) (by simp [Fails, self, last])).2.filled 0 ⟨true, ["a"]⟩ rfl
  exact absurd hfilled (by decide)

end Retries

end WsServer.Crawler
