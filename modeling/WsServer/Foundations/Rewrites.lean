import WsServer.Foundations.FileSystem

/-!
# Files written from their beginning

`rewrite` opens a file for writing, which empties or creates it, and writes to it. Afterwards its
path reads what was written (`read_rewrite_self`), a path to another file reads what it did before
(`read_rewrite_of_not_sameOutput`), and the same paths can be opened (`openable_rewrite`). Two paths
are to the same file when they lead to one entry, which need not exist yet, or to two entries of
one file (`SameOutput`).
-/

set_option autoImplicit false
set_option relaxedAutoImplicit false

namespace WsServer.Foundations

namespace FileSystem

variable {Byte : Type} {fs fs' : FileSystem Byte} {p q : Path} {l x : Location} {i : ℕ}
  {bytes : List Byte}

/-- A file written from its beginning, when it can be opened. -/
def rewrite (fs : FileSystem Byte) (p : Path) (bytes : List Byte) : FileSystem Byte :=
  match fs.openOutput true p with
  | none => fs
  | some (fs', i) => fs'.append i bytes

/-- Whatever is written by the two paths is written to one file. -/
def SameOutput (fs : FileSystem Byte) (p q : Path) : Prop :=
  ∃ l l', fs.resolve .output p = .ok l ∧ fs.resolve .output q = .ok l' ∧
    (l = l' ∨ ∃ i, fs.nodes l = some (.file i) ∧ fs.nodes l' = some (.file i))

theorem Opened.resolve_output_iff {truncate : Bool} (h : Opened fs truncate p fs' l i) :
    fs'.resolve .output q = .ok x ↔ fs.resolve .output q = .ok x := by
  rw [resolve_eq_ok_iff, resolve_eq_ok_iff, h.workingDirectory]
  exact and_congr_right fun _ ↦ ⟨h.placed.leads_output_anti, h.placed.leads_output_mono⟩

/-- The file is an old one or has been made where one can be. -/
theorem Opened.place {truncate : Bool} (h : Opened fs truncate p fs' l i) :
    (∃ j, fs.nodes l = some (.file j)) ∨ fs.Vacant l := by
  rcases h.node with hnode | ⟨hnode, -⟩
  · exact Or.inl ⟨i, hnode⟩
  · refine Or.inr ⟨hnode, ?_⟩
    rcases List.eq_nil_or_concat l with rfl | ⟨above, name, rfl⟩
    · simp [fs.root_directory] at hnode
    · rw [List.concat_eq_append] at h ⊢
      rw [List.dropLast_concat, ← h.placed.directory_iff]
      exact fs'.parent_directory above name (by rw [h.placed.file]; exact Option.some_ne_none _)

theorem Opened.openable_iff {truncate : Bool} (h : Opened fs truncate p fs' l i) :
    fs'.Openable q ↔ fs.Openable q := by
  refine exists_congr fun x ↦ and_congr h.resolve_output_iff ?_
  by_cases hx : x = l
  · subst hx
    exact iff_of_true (Or.inl ⟨i, h.placed.file⟩) h.place
  · unfold Vacant
    rw [h.placed.same x hx, h.placed.directory_iff]

/-- A file that is opened by one path is opened by the other. -/
theorem Opened.sameOutput {truncate : Bool} (h : Opened fs truncate p fs' l i)
    (hq : fs'.inode q = some i) : fs.SameOutput p q := by
  obtain ⟨x, hx, hnode⟩ := inode_eq_some_iff.mp hq
  have hx := h.resolve_output_iff.mp (resolve_toOutput hx)
  refine ⟨l, x, h.resolve, hx, ?_⟩
  by_cases hxl : x = l
  · exact Or.inl hxl.symm
  · rw [h.placed.same x hxl] at hnode
    rcases h.node with hl | ⟨-, hbound⟩
    · exact Or.inr ⟨i, hl, hnode⟩
    · exact absurd (fs.inode_lt x i hnode) (by omega)

theorem Opened.inode_eq {truncate : Bool} (h : Opened fs truncate p fs' l i)
    (hpq : ¬ fs.SameOutput p q) : fs'.inode q = fs.inode q := by
  refine Option.ext fun k ↦ ⟨fun hq ↦ ?_, h.toExtends.inode⟩
  obtain ⟨x, hx, hnode⟩ := inode_eq_some_iff.mp hq
  have hxl : x ≠ l := by
    rintro rfl
    obtain rfl : i = k := by simpa [h.placed.file] using hnode
    exact hpq (h.sameOutput hq)
  rw [h.placed.same x hxl] at hnode
  exact inode_of_resolve_output (h.resolve_output_iff.mp (resolve_toOutput hx)) hnode

/-- Opening a file and writing to it changes no other one. -/
theorem Opened.read_append {truncate : Bool} (h : Opened fs truncate p fs' l i)
    (hpq : ¬ fs.SameOutput p q) : (fs'.append i bytes).read q = fs.read q := by
  have hinode := h.inode_eq hpq
  unfold read
  rw [inode_append, hinode]
  rcases hq : fs.inode q with _ | j
  · rfl
  · have hne : j ≠ i := by
      rintro rfl
      exact hpq (h.sameOutput (hinode.trans hq))
    rw [Option.map_some, Option.map_some, contents_append_of_ne hne, h.other j hne]

/-! ### Rewriting -/

theorem rewrite_eq_self (hp : ¬ fs.Openable p) : fs.rewrite p bytes = fs := by
  have hopen : fs.openOutput true p = none := by
    by_contra hne
    exact hp (openOutput_ne_none_iff.mp hne)
  simp [rewrite, hopen]

theorem exists_opened (hp : fs.Openable p) : ∃ fs' l i, Opened fs true p fs' l i ∧
    ∀ bytes, fs.rewrite p bytes = fs'.append i bytes := by
  have hne : fs.openOutput true p ≠ none := openOutput_ne_none_iff.mpr hp
  obtain ⟨⟨fs', i⟩, hopen⟩ := Option.ne_none_iff_exists'.mp hne
  obtain ⟨l, hopened⟩ := openOutput_opened hopen
  exact ⟨fs', l, i, hopened, fun bytes ↦ by simp [rewrite, hopen]⟩

theorem read_rewrite_self (hp : fs.Openable p) : (fs.rewrite p bytes).read p = some bytes := by
  obtain ⟨fs', l, i, hopened, hrewrite⟩ := exists_opened hp
  rw [hrewrite, read_eq_some_iff]
  exact ⟨i, hopened.inode, by rw [contents_append_self, hopened.truncated rfl, List.nil_append]⟩

theorem read_rewrite_of_not_sameOutput (hpq : ¬ fs.SameOutput p q) :
    (fs.rewrite p bytes).read q = fs.read q := by
  by_cases hp : fs.Openable p
  · obtain ⟨fs', l, i, hopened, hrewrite⟩ := exists_opened hp
    rw [hrewrite]
    exact hopened.read_append hpq
  · rw [rewrite_eq_self hp]

theorem openable_rewrite : (fs.rewrite p bytes).Openable q ↔ fs.Openable q := by
  by_cases hp : fs.Openable p
  · obtain ⟨fs', l, i, hopened, hrewrite⟩ := exists_opened hp
    rw [hrewrite]
    exact hopened.openable_iff
  · rw [rewrite_eq_self hp]

/-- Paths to one file stay so. -/
theorem SameOutput.rewrite {r : Path} (hpq : fs.SameOutput p q) :
    (fs.rewrite r bytes).SameOutput p q := by
  by_cases hr : fs.Openable r
  · obtain ⟨fs', l, i, hopened, hrewrite⟩ := exists_opened hr
    obtain ⟨x, x', hx, hx', hsame⟩ := hpq
    rw [hrewrite]
    refine ⟨x, x', hopened.resolve_output_iff.mpr hx, hopened.resolve_output_iff.mpr hx', ?_⟩
    refine hsame.imp_right ?_
    rintro ⟨j, hj, hj'⟩
    exact ⟨j, hopened.toExtends.nodes x _ hj, hopened.toExtends.nodes x' _ hj'⟩
  · rwa [rewrite_eq_self hr]

theorem SameOutput.symm (hpq : fs.SameOutput p q) : fs.SameOutput q p := by
  obtain ⟨x, x', hx, hx', hsame⟩ := hpq
  refine ⟨x', x, hx', hx, ?_⟩
  rcases hsame with rfl | ⟨i, hi, hi'⟩
  · exact Or.inl rfl
  · exact Or.inr ⟨i, hi', hi⟩

theorem sameOutput_comm : fs.SameOutput p q ↔ fs.SameOutput q p :=
  ⟨SameOutput.symm, SameOutput.symm⟩

/-- Writing to a file gives it no other path. -/
theorem sameOutput_rewrite : (fs.rewrite p bytes).SameOutput p q ↔ fs.SameOutput p q := by
  refine ⟨fun hpq ↦ ?_, SameOutput.rewrite⟩
  by_cases hp : fs.Openable p
  · obtain ⟨fs', l, i, hopened, hrewrite⟩ := exists_opened hp
    rw [hrewrite] at hpq
    obtain ⟨x, x', hx, hx', hsame⟩ := hpq
    have hx : fs.resolve .output p = .ok x := hopened.resolve_output_iff.mp hx
    obtain rfl : l = x := Except.ok.inj (hopened.resolve.symm.trans hx)
    rcases hsame with rfl | ⟨k, hk, hk'⟩
    · exact ⟨l, l, hx, hopened.resolve_output_iff.mp hx', Or.inl rfl⟩
    · obtain rfl : i = k := by
        have hfile : fs'.nodes l = some (.file k) := hk
        simpa [hopened.placed.file] using hfile
      have hq : fs'.inode q = some i := inode_of_resolve_output hx' hk'
      exact hopened.sameOutput hq
  · rwa [rewrite_eq_self hp] at hpq

/-- Paths to one file read the same. -/
theorem SameOutput.read_eq {bytes' : List Byte} (hpq : fs.SameOutput p q)
    (hp : fs.read p = some bytes) (hq : fs.read q = some bytes') : bytes = bytes' := by
  obtain ⟨i, hi, rfl⟩ := read_eq_some_iff.mp hp
  obtain ⟨j, hj, rfl⟩ := read_eq_some_iff.mp hq
  obtain ⟨x, hx, hnode⟩ := inode_eq_some_iff.mp hi
  obtain ⟨x', hx', hnode'⟩ := inode_eq_some_iff.mp hj
  obtain ⟨l, l', hl, hl', hsame⟩ := hpq
  obtain rfl : l = x := Except.ok.inj (hl.symm.trans (resolve_toOutput hx))
  obtain rfl : l' = x' := Except.ok.inj (hl'.symm.trans (resolve_toOutput hx'))
  have hnodes : fs.nodes l = fs.nodes l' := by
    rcases hsame with rfl | ⟨k, hk, hk'⟩
    · rfl
    · rw [hk, hk']
  obtain rfl : i = j := by simpa [hnode, hnode'] using hnodes
  rfl

end FileSystem

end WsServer.Foundations
