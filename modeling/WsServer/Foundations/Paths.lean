import Mathlib.Data.List.Basic
import Mathlib.Data.List.DropRight
import Mathlib.Tactic

/-!
# Paths with links

The entries of a file system are directories, regular files and symbolic links. `walk` follows a
path name by name the way an operating system does, with a bound on the number of links, and
`Lookup` says what the last name may stand for. `Leads` is the same as a relation, and
`walk_eq_ok_iff` that they agree: what is said about paths below is proved by induction on `Leads`.

Devices, sockets and pipes are left out, and so are permissions. Names contain no NUL.
-/

set_option autoImplicit false
set_option relaxedAutoImplicit false

namespace WsServer.Foundations

/-- The names that lead to an entry from the root. -/
abbrev Location := List String

/-- A path as it is written: `""`, `"."` and `".."` are names like others. -/
structure Path where
  absolute : Bool
  names : List String
  deriving DecidableEq

namespace Path

def isEmpty (p : Path) : Bool := !p.absolute && p.names.isEmpty

def parentPath (p : Path) : Path := { p with names := p.names.dropLast }

def hasParentPath (p : Path) : Bool := p.absolute || decide (2 ≤ p.names.length)

/-- Names that lead nowhere else or to the directory above. -/
def IsSpecial (name : String) : Prop := name = "" ∨ name = "." ∨ name = ".."

instance : DecidablePred IsSpecial := fun name ↦
  inferInstanceAs (Decidable (name = "" ∨ name = "." ∨ name = ".."))

/-- Without the separators at the end. -/
def bare (p : Path) : Path := { p with names := p.names.rdropWhile (· = "") }

theorem bare_of_getLast? (p : Path) {name : String} (hlast : p.names.getLast? = some name)
    (hname : name ≠ "") : p.bare = p := by
  obtain ⟨above, habove⟩ := List.getLast?_eq_some_iff.mp hlast
  rw [bare, habove, List.rdropWhile_concat_neg _ _ _ (by simpa using hname), ← habove]

end Path

inductive Node
  | directory
  | file (inode : ℕ)
  | link (path : Path)
  deriving DecidableEq

inductive Errno
  | noent
  | notdir
  | loop
  deriving DecidableEq

/-! ### Following a path -/

section Walk

/-- What the last name of a path may stand for: whether it is followed when it is a link, and
whether it may be missing. -/
structure Lookup where
  followLast : Bool
  mayMiss : Bool

namespace Lookup

/-- What a path names. -/
abbrev target : Lookup := ⟨true, false⟩

/-- The entry with the last name itself. -/
abbrev entry : Lookup := ⟨false, false⟩

/-- Where a file is written, which may be created. -/
abbrev output : Lookup := ⟨true, true⟩

/-- Where a directory is created. -/
abbrev vacancy : Lookup := ⟨false, true⟩

end Lookup

/-- The names `names` from the directory `here`; a link is left to `onLink`. -/
def follow (nodes : Location → Option Node) (mode : Lookup)
    (onLink : Location → List String → Except Errno Location) :
    Location → List String → Except Errno Location
  | here, [] => .ok here
  | here, name :: rest =>
    match nodes here with
    | none => .error .noent
    | some (.file _) => .error .notdir
    | some (.link _) => .error .notdir
    | some .directory =>
      if name = "" ∨ name = "." then follow nodes mode onLink here rest
      else if name = ".." then follow nodes mode onLink here.dropLast rest
      else
        match nodes (here ++ [name]) with
        | none =>
          if rest = [] ∧ mode.mayMiss = true then .ok (here ++ [name]) else .error .noent
        | some (.link path) =>
          if rest = [] ∧ mode.followLast = false then .ok (here ++ [name])
          else onLink (if path.absolute then [] else here) (path.names ++ rest)
        | some _ => follow nodes mode onLink (here ++ [name]) rest

/-- The names `names` from the directory `here`, through at most this many links. -/
def walk (nodes : Location → Option Node) (mode : Lookup) :
    ℕ → Location → List String → Except Errno Location
  | 0 => follow nodes mode fun _ _ ↦ .error .loop
  | links + 1 => follow nodes mode (walk nodes mode links)

/-- From the directory `here` the names `names` lead to `l`. -/
inductive Leads (nodes : Location → Option Node) (mode : Lookup) :
    ℕ → Location → List String → Location → Prop
  | done {links : ℕ} {here : Location} : Leads nodes mode links here [] here
  | stay {links : ℕ} {here l : Location} {name : String} {rest : List String}
      (hhere : nodes here = some .directory) (hname : name = "" ∨ name = ".")
      (hrest : Leads nodes mode links here rest l) : Leads nodes mode links here (name :: rest) l
  | up {links : ℕ} {here l : Location} {rest : List String}
      (hhere : nodes here = some .directory)
      (hrest : Leads nodes mode links here.dropLast rest l) :
      Leads nodes mode links here (".." :: rest) l
  | enter {links : ℕ} {here l : Location} {name : String} {rest : List String} {node : Node}
      (hhere : nodes here = some .directory) (hname : ¬ Path.IsSpecial name)
      (hnode : nodes (here ++ [name]) = some node) (hlink : ∀ path, node ≠ .link path)
      (hrest : Leads nodes mode links (here ++ [name]) rest l) :
      Leads nodes mode links here (name :: rest) l
  | miss {links : ℕ} {here : Location} {name : String}
      (hhere : nodes here = some .directory) (hname : ¬ Path.IsSpecial name)
      (hnode : nodes (here ++ [name]) = none) (hmode : mode.mayMiss = true) :
      Leads nodes mode links here [name] (here ++ [name])
  | last {links : ℕ} {here : Location} {name : String} {path : Path}
      (hhere : nodes here = some .directory) (hname : ¬ Path.IsSpecial name)
      (hnode : nodes (here ++ [name]) = some (.link path)) (hmode : mode.followLast = false) :
      Leads nodes mode links here [name] (here ++ [name])
  | link {links : ℕ} {here l : Location} {name : String} {rest : List String} {path : Path}
      (hhere : nodes here = some .directory) (hname : ¬ Path.IsSpecial name)
      (hnode : nodes (here ++ [name]) = some (.link path))
      (hmode : ¬ (rest = [] ∧ mode.followLast = false))
      (hrest : Leads nodes mode links (if path.absolute then [] else here) (path.names ++ rest) l) :
      Leads nodes mode (links + 1) here (name :: rest) l

variable {nodes nodes' : Location → Option Node} {mode : Lookup} {links : ℕ} {here l : Location}
  {names : List String}

section Follow

variable {onLink : Location → List String → Except Errno Location} {name : String}
  {rest : List String}

theorem follow_stay (hhere : nodes here = some .directory) (hname : name = "" ∨ name = ".") :
    follow nodes mode onLink here (name :: rest) = follow nodes mode onLink here rest := by
  simp only [follow, hhere, if_pos hname]

theorem follow_up (hhere : nodes here = some .directory) :
    follow nodes mode onLink here (".." :: rest) = follow nodes mode onLink here.dropLast rest := by
  simp [follow, hhere]

theorem follow_miss (hhere : nodes here = some .directory) (hname : ¬ Path.IsSpecial name)
    (hnode : nodes (here ++ [name]) = none) :
    follow nodes mode onLink here (name :: rest) =
      if rest = [] ∧ mode.mayMiss = true then .ok (here ++ [name]) else .error .noent := by
  simp only [Path.IsSpecial, not_or] at hname
  simp only [follow, hhere, hname, hnode, or_self, if_false]

theorem follow_link {path : Path} (hhere : nodes here = some .directory)
    (hname : ¬ Path.IsSpecial name) (hnode : nodes (here ++ [name]) = some (.link path)) :
    follow nodes mode onLink here (name :: rest) =
      if rest = [] ∧ mode.followLast = false then .ok (here ++ [name])
      else onLink (if path.absolute then [] else here) (path.names ++ rest) := by
  simp only [Path.IsSpecial, not_or] at hname
  simp only [follow, hhere, hname, hnode, or_self, if_false]

theorem follow_enter {node : Node} (hhere : nodes here = some .directory)
    (hname : ¬ Path.IsSpecial name) (hnode : nodes (here ++ [name]) = some node)
    (hlink : ∀ path, node ≠ .link path) :
    follow nodes mode onLink here (name :: rest) =
      follow nodes mode onLink (here ++ [name]) rest := by
  simp only [Path.IsSpecial, not_or] at hname
  simp only [follow, hhere, hname, hnode, or_self, if_false]

/-- Only a directory has names below it. -/
theorem directory_of_follow (hfollow : follow nodes mode onLink here (name :: rest) = .ok l) :
    nodes here = some .directory := by
  unfold follow at hfollow
  split at hfollow
  · cases hfollow
  · cases hfollow
  · cases hfollow
  · assumption

end Follow

theorem Leads.follow_eq {onLink : Location → List String → Except Errno Location}
    (hlead : Leads nodes mode links here names l)
    (honLink : ∀ links' here names l, links = links' + 1 → Leads nodes mode links' here names l →
      onLink here names = .ok l) : follow nodes mode onLink here names = .ok l := by
  induction hlead with
  | done => rfl
  | stay hhere hname _ ih =>
    rw [follow_stay hhere hname]
    exact ih honLink
  | up hhere _ ih =>
    rw [follow_up hhere]
    exact ih honLink
  | enter hhere hname hnode hlink _ ih =>
    rw [follow_enter hhere hname hnode hlink]
    exact ih honLink
  | miss hhere hname hnode hmode => rw [follow_miss hhere hname hnode, if_pos ⟨rfl, hmode⟩]
  | last hhere hname hnode hmode => rw [follow_link hhere hname hnode, if_pos ⟨rfl, hmode⟩]
  | link hhere hname hnode hmode hrest _ =>
    rw [follow_link hhere hname hnode, if_neg hmode]
    exact honLink _ _ _ _ rfl hrest

theorem leads_of_follow {onLink : Location → List String → Except Errno Location}
    (honLink : ∀ here names, onLink here names = .ok l →
      ∃ links', links = links' + 1 ∧ Leads nodes mode links' here names l)
    (hfollow : follow nodes mode onLink here names = .ok l) :
    Leads nodes mode links here names l := by
  induction names generalizing here with
  | nil =>
    cases hfollow
    exact .done
  | cons name rest ih =>
    have hhere := directory_of_follow hfollow
    by_cases hdot : name = "" ∨ name = "."
    · rw [follow_stay hhere hdot] at hfollow
      exact .stay hhere hdot (ih hfollow)
    by_cases hup : name = ".."
    · subst hup
      rw [follow_up hhere] at hfollow
      exact .up hhere (ih hfollow)
    have hname : ¬ Path.IsSpecial name := by
      simp only [Path.IsSpecial, not_or] at hdot ⊢
      exact ⟨hdot.1, hdot.2, hup⟩
    match hnode : nodes (here ++ [name]) with
    | none =>
      rw [follow_miss hhere hname hnode] at hfollow
      by_cases hmode : rest = [] ∧ mode.mayMiss = true
      · rw [if_pos hmode] at hfollow
        cases hfollow
        obtain ⟨rfl, hmode⟩ := hmode
        exact .miss hhere hname hnode hmode
      · rw [if_neg hmode] at hfollow
        cases hfollow
    | some (.link path) =>
      rw [follow_link hhere hname hnode] at hfollow
      by_cases hmode : rest = [] ∧ mode.followLast = false
      · rw [if_pos hmode] at hfollow
        cases hfollow
        obtain ⟨rfl, hmode⟩ := hmode
        exact .last hhere hname hnode hmode
      · rw [if_neg hmode] at hfollow
        obtain ⟨links', rfl, hrest⟩ := honLink _ _ hfollow
        exact .link hhere hname hnode hmode hrest
    | some .directory =>
      rw [follow_enter hhere hname hnode (by simp)] at hfollow
      exact .enter hhere hname hnode (by simp) (ih hfollow)
    | some (.file inode) =>
      rw [follow_enter hhere hname hnode (by simp)] at hfollow
      exact .enter hhere hname hnode (by simp) (ih hfollow)

/-- The function and the relation agree. -/
theorem walk_eq_ok_iff : walk nodes mode links here names = .ok l ↔
    Leads nodes mode links here names l := by
  constructor
  · intro hwalk
    induction links generalizing here names with
    | zero => exact leads_of_follow (fun _ _ hloop ↦ by cases hloop) hwalk
    | succ links ih => exact leads_of_follow (fun _ _ hrest ↦ ⟨links, rfl, ih hrest⟩) hwalk
  · intro hlead
    induction links generalizing here names l with
    | zero => exact hlead.follow_eq fun _ _ _ _ hlinks ↦ by cases hlinks
    | succ links ih =>
      refine hlead.follow_eq fun links' here names l hlinks hrest ↦ ?_
      obtain rfl : links = links' := by omega
      exact ih hrest

/-- More entries do not change where a path leads. -/
theorem Leads.mono (hsub : ∀ l node, nodes l = some node → nodes' l = some node)
    (hmode : mode.mayMiss = false) (hlead : Leads nodes mode links here names l) :
    Leads nodes' mode links here names l := by
  induction hlead with
  | done => exact .done
  | stay hhere hname _ ih => exact .stay (hsub _ _ hhere) hname ih
  | up hhere _ ih => exact .up (hsub _ _ hhere) ih
  | enter hhere hname hnode hlink _ ih =>
    exact .enter (hsub _ _ hhere) hname (hsub _ _ hnode) hlink ih
  | miss _ _ _ hmiss => simp [hmode] at hmiss
  | last hhere hname hnode hlast => exact .last (hsub _ _ hhere) hname (hsub _ _ hnode) hlast
  | link hhere hname hnode hlast _ ih =>
    exact .link (hsub _ _ hhere) hname (hsub _ _ hnode) hlast ih

/-- A path that leads somewhere has an entry with its last name. -/
theorem Leads.exists_entry (hlead : Leads nodes .target links here names l) :
    ∃ l', Leads nodes .entry links here names l' ∧
      (l' = l ∨ ∃ path, nodes l' = some (.link path)) := by
  induction hlead with
  | done => exact ⟨_, .done, Or.inl rfl⟩
  | stay hhere hname _ ih =>
    obtain ⟨l', hlead, hl'⟩ := ih
    exact ⟨l', .stay hhere hname hlead, hl'⟩
  | up hhere _ ih =>
    obtain ⟨l', hlead, hl'⟩ := ih
    exact ⟨l', .up hhere hlead, hl'⟩
  | enter hhere hname hnode hlink _ ih =>
    obtain ⟨l', hlead, hl'⟩ := ih
    exact ⟨l', .enter hhere hname hnode hlink hlead, hl'⟩
  | miss _ _ _ hmiss => simp at hmiss
  | last _ _ _ hlast => simp at hlast
  | @link _ here _ name rest path hhere hname hnode _ _ ih =>
    by_cases hrest : rest = []
    · subst hrest
      exact ⟨here ++ [name], .last hhere hname hnode rfl, Or.inr ⟨path, hnode⟩⟩
    · obtain ⟨l', hlead, hl'⟩ := ih
      exact ⟨l', .link hhere hname hnode (fun h ↦ hrest h.1) hlead, hl'⟩

/-- All names but the last lead to directories. -/
theorem Leads.of_append {pre post : List String}
    (hlead : Leads nodes mode links here (pre ++ post) l) (hpost : post ≠ []) :
    ∃ c, Leads nodes .target links here pre c ∧ nodes c = some .directory := by
  obtain ⟨names, hnames⟩ : ∃ names, names = pre ++ post := ⟨_, rfl⟩
  rw [← hnames] at hlead
  induction hlead generalizing pre with
  | done => simp [hpost] at hnames
  | stay hhere hname _ ih =>
    rcases List.cons_eq_append_iff.mp hnames with ⟨rfl, -⟩ | ⟨pre, rfl, hrest⟩
    · exact ⟨_, .done, hhere⟩
    · obtain ⟨c, hlead, hc⟩ := ih hrest
      exact ⟨c, .stay hhere hname hlead, hc⟩
  | up hhere _ ih =>
    rcases List.cons_eq_append_iff.mp hnames with ⟨rfl, -⟩ | ⟨pre, rfl, hrest⟩
    · exact ⟨_, .done, hhere⟩
    · obtain ⟨c, hlead, hc⟩ := ih hrest
      exact ⟨c, .up hhere hlead, hc⟩
  | enter hhere hname hnode hlink _ ih =>
    rcases List.cons_eq_append_iff.mp hnames with ⟨rfl, -⟩ | ⟨pre, rfl, hrest⟩
    · exact ⟨_, .done, hhere⟩
    · obtain ⟨c, hlead, hc⟩ := ih hrest
      exact ⟨c, .enter hhere hname hnode hlink hlead, hc⟩
  | miss hhere =>
    rcases List.cons_eq_append_iff.mp hnames with ⟨rfl, -⟩ | ⟨pre, rfl, hrest⟩
    · exact ⟨_, .done, hhere⟩
    · simp [hpost] at hrest
  | last hhere =>
    rcases List.cons_eq_append_iff.mp hnames with ⟨rfl, -⟩ | ⟨pre, rfl, hrest⟩
    · exact ⟨_, .done, hhere⟩
    · simp [hpost] at hrest
  | link hhere hname hnode _ _ ih =>
    rcases List.cons_eq_append_iff.mp hnames with ⟨rfl, -⟩ | ⟨pre, rfl, hrest⟩
    · exact ⟨_, .done, hhere⟩
    · obtain ⟨c, hlead, hc⟩ := ih (by rw [hrest, List.append_assoc])
      exact ⟨c, .link hhere hname hnode (by simp) hlead, hc⟩

/-- A path that ends in a separator, `"."` or `".."` leads to a directory. -/
theorem Leads.directory_of_getLast (hroot : nodes [] = some .directory)
    (hparent : ∀ l name, nodes (l ++ [name]) ≠ none → nodes l = some .directory)
    (hlead : Leads nodes mode links here names l) {last : String}
    (hlast : names.getLast? = some last) (hspecial : Path.IsSpecial last) :
    nodes l = some .directory := by
  induction hlead with
  | done => simp at hlast
  | stay hhere hname hrest ih =>
    rename_i rest
    rcases rest with _ | ⟨next, rest⟩
    · cases hrest
      exact hhere
    · exact ih (by simpa using hlast)
  | @up _ here _ rest hhere hrest ih =>
    rcases rest with _ | ⟨next, rest⟩
    · cases hrest
      rcases List.eq_nil_or_concat here with rfl | ⟨above, name, rfl⟩
      · exact hroot
      · rw [List.concat_eq_append] at hhere ⊢
        rw [List.dropLast_concat]
        exact hparent above name (by simp [hhere])
    · exact ih (by simpa using hlast)
  | enter hhere hname hnode hlink hrest ih =>
    rename_i rest _
    rcases rest with _ | ⟨next, rest⟩
    · obtain rfl : _ = last := by simpa using hlast
      exact absurd hspecial hname
    · exact ih (by simpa using hlast)
  | miss _ hname =>
    obtain rfl : _ = last := by simpa using hlast
    exact absurd hspecial hname
  | last _ hname =>
    obtain rfl : _ = last := by simpa using hlast
    exact absurd hspecial hname
  | link hhere hname hnode hmode hrest ih =>
    rename_i rest path
    rcases rest with _ | ⟨next, rest⟩
    · obtain rfl : _ = last := by simpa using hlast
      exact absurd hspecial hname
    · exact ih (by simpa using hlast)

section Output

variable {d : Location} {i : ℕ}

/-- `nodes'` is `nodes` with a file at `d`, where there was nothing or a file before. -/
structure Placed (nodes nodes' : Location → Option Node) (d : Location) (i : ℕ) : Prop where
  same : ∀ x, x ≠ d → nodes' x = nodes x
  file : nodes' d = some (.file i)
  old : nodes d = none ∨ ∃ j, nodes d = some (.file j)

theorem Placed.directory_iff (h : Placed nodes nodes' d i) (x : Location) :
    nodes' x = some .directory ↔ nodes x = some .directory := by
  by_cases hx : x = d
  · subst hx
    rcases h.old with hold | ⟨j, hold⟩ <;> simp [h.file, hold]
  · rw [h.same x hx]

theorem Placed.link_iff (h : Placed nodes nodes' d i) (x : Location) (path : Path) :
    nodes' x = some (.link path) ↔ nodes x = some (.link path) := by
  by_cases hx : x = d
  · subst hx
    rcases h.old with hold | ⟨j, hold⟩ <;> simp [h.file, hold]
  · rw [h.same x hx]

theorem Leads.toOutput (hlead : Leads nodes .target links here names l) :
    Leads nodes .output links here names l := by
  induction hlead with
  | done => exact .done
  | stay hhere hname _ ih => exact .stay hhere hname ih
  | up hhere _ ih => exact .up hhere ih
  | enter hhere hname hnode hlink _ ih => exact .enter hhere hname hnode hlink ih
  | miss _ _ _ hmiss => simp at hmiss
  | last _ _ _ hlast => simp at hlast
  | link hhere hname hnode hmode _ ih => exact .link hhere hname hnode hmode ih

/-- A path that leads to an entry names it. -/
theorem Leads.toTarget (hlead : Leads nodes .output links here names l) (hl : nodes l ≠ none) :
    Leads nodes .target links here names l := by
  induction hlead with
  | done => exact .done
  | stay hhere hname _ ih => exact .stay hhere hname (ih hl)
  | up hhere _ ih => exact .up hhere (ih hl)
  | enter hhere hname hnode hlink _ ih => exact .enter hhere hname hnode hlink (ih hl)
  | miss _ _ hnode _ => exact absurd hnode hl
  | last _ _ _ hlast => simp at hlast
  | link hhere hname hnode hmode _ ih => exact .link hhere hname hnode hmode (ih hl)

/-- Where a new or another file lies does not change where paths lead. -/
theorem Placed.leads_output_mono (h : Placed nodes nodes' d i)
    (hlead : Leads nodes .output links here names l) :
    Leads nodes' .output links here names l := by
  induction hlead with
  | done => exact .done
  | stay hhere hname _ ih => exact .stay ((h.directory_iff _).mpr hhere) hname ih
  | up hhere _ ih => exact .up ((h.directory_iff _).mpr hhere) ih
  | @enter _ here _ name _ _ hhere hname hnode hlink _ ih =>
    have hhere' := (h.directory_iff _).mpr hhere
    by_cases hd : here ++ [name] = d
    · exact .enter hhere' hname (by rw [hd, h.file]) (by simp) ih
    · exact .enter hhere' hname (by rw [h.same _ hd, hnode]) hlink ih
  | @miss _ here name hhere hname hnode hmode =>
    have hhere' := (h.directory_iff _).mpr hhere
    by_cases hd : here ++ [name] = d
    · exact .enter hhere' hname (by rw [hd, h.file]) (by simp) .done
    · exact .miss hhere' hname (by rw [h.same _ hd, hnode]) hmode
  | last _ _ _ hlast => simp at hlast
  | link hhere hname hnode hmode _ ih =>
    exact .link ((h.directory_iff _).mpr hhere) hname ((h.link_iff _ _).mpr hnode) hmode ih

theorem Placed.leads_output_anti (h : Placed nodes nodes' d i)
    (hlead : Leads nodes' .output links here names l) :
    Leads nodes .output links here names l := by
  induction hlead with
  | done => exact .done
  | stay hhere hname _ ih => exact .stay ((h.directory_iff _).mp hhere) hname ih
  | up hhere _ ih => exact .up ((h.directory_iff _).mp hhere) ih
  | @enter _ here _ name rest _ hhere hname hnode hlink hrest ih =>
    have hhere' := (h.directory_iff _).mp hhere
    by_cases hd : here ++ [name] = d
    · rcases h.old with hold | ⟨j, hold⟩
      -- Nothing was there: the name is the last one.
      · have hlast : rest = [] := by
          have hfile := h.file
          cases hrest <;> simp_all
        subst hlast
        cases hrest
        exact .miss hhere' hname (by rw [hd, hold]) rfl
      · exact .enter hhere' hname (by rw [hd, hold]) (by simp) ih
    · exact .enter hhere' hname (by rw [← h.same _ hd, hnode]) hlink ih
  | @miss _ here name hhere hname hnode hmode =>
    have hd : here ++ [name] ≠ d := by
      intro hd
      rw [hd, h.file] at hnode
      cases hnode
    exact .miss ((h.directory_iff _).mp hhere) hname (by rw [← h.same _ hd, hnode]) hmode
  | last _ _ _ hlast => simp at hlast
  | link hhere hname hnode hmode _ ih =>
    exact .link ((h.directory_iff _).mp hhere) hname ((h.link_iff _ _).mp hnode) hmode ih

theorem Placed.leads_output (h : Placed nodes nodes' d i)
    (hlead : Leads nodes' .target links here names d) :
    Leads nodes .output links here names d := h.leads_output_anti hlead.toOutput

theorem Placed.leads_target (h : Placed nodes nodes' d i)
    (hlead : Leads nodes .output links here names d) :
    Leads nodes' .target links here names d :=
  (h.leads_output_mono hlead).toTarget (by simp [h.file])

/-- Exactly the paths lead to the file afterwards that it is written by before. -/
theorem Placed.leads_iff (h : Placed nodes nodes' d i) :
    Leads nodes' .target links here names d ↔ Leads nodes .output links here names d :=
  ⟨h.leads_output, h.leads_target⟩

end Output

end Walk

end WsServer.Foundations
