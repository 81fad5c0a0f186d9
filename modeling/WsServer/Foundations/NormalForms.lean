import WsServer.Foundations.Frames

/-!
# Normal forms of paths

`Path.ofText` reads a path and `Path.lexicallyNormal` removes the names that lead nowhere else, as a
standard library does: the names are appended one after the other, and a last separator is an empty
name. The normal form of an absolute path is where it leads without links, with a last separator
when the path ends in `""`, `"."` or `".."` (`lexicallyNormal_absolute`); so a directory other than
the root has two normal forms. `Path.string` writes a path, and `ofText_string` reads it back.
-/

set_option autoImplicit false
set_option relaxedAutoImplicit false

namespace WsServer.Foundations

/-! ### Where names lead without links -/

/-- Names that lead from a directory into it. -/
def Path.Plain (l : Location) : Prop := ∀ name ∈ l, ¬ Path.IsSpecial name

namespace Path.Plain

variable {l : Location} {name : String}

theorem getLast?_ne (hl : Path.Plain l) (hname : Path.IsSpecial name) : l.getLast? ≠ some name :=
  fun hlast ↦ hl name (List.mem_of_mem_getLast? hlast) hname

theorem dropLast (hl : Path.Plain l) : Path.Plain l.dropLast :=
  fun name hname ↦ hl name (List.mem_of_mem_dropLast hname)

theorem concat (hl : Path.Plain l) (hname : ¬ Path.IsSpecial name) :
    Path.Plain (l ++ [name]) := by
  intro other hother
  rcases List.mem_append.mp hother with hother | hother
  · exact hl other hother
  · rwa [List.mem_singleton.mp hother]

end Path.Plain

theorem lexically_append (here : Location) (names more : List String) :
    lexically here (names ++ more) = lexically (lexically here names) more := by
  induction names generalizing here with
  | nil => rfl
  | cons name names ih =>
    rw [List.cons_append, lexically, lexically]
    split_ifs
    · exact ih here
    · exact ih here.dropLast
    · exact ih (here ++ [name])

theorem lexically_plain {here : Location} (hhere : Path.Plain here) (names : List String) :
    Path.Plain (lexically here names) := by
  induction names generalizing here with
  | nil => exact hhere
  | cons name names ih =>
    rw [lexically]
    split_ifs with hstay hup
    · exact ih hhere
    · exact ih hhere.dropLast
    · refine ih (hhere.concat ?_)
      simp only [Path.IsSpecial, not_or]
      exact ⟨fun h ↦ hstay (Or.inl h), fun h ↦ hstay (Or.inr h), hup⟩

/-- The names of where a path leads are its own. -/
theorem mem_of_mem_lexically {here : Location} {names : List String} {name : String}
    (hname : name ∈ lexically here names) : name ∈ here ∨ name ∈ names := by
  induction names generalizing here with
  | nil => exact Or.inl hname
  | cons next names ih =>
    rw [lexically] at hname
    split_ifs at hname
    · exact (ih hname).imp id (List.mem_cons_of_mem _)
    · exact (ih hname).imp List.mem_of_mem_dropLast (List.mem_cons_of_mem _)
    · rcases ih hname with hname | hname
      · rcases List.mem_append.mp hname with hname | hname
        · exact Or.inl hname
        · exact Or.inr (by simp [List.mem_singleton.mp hname])
      · exact Or.inr (List.mem_cons_of_mem _ hname)

/-- Plain names lead where they say. -/
theorem lexically_of_plain {here l : Location} (hl : Path.Plain l) :
    lexically here l = here ++ l := by
  induction l generalizing here with
  | nil => rw [lexically, List.append_nil]
  | cons name l ih =>
    have hname := hl name List.mem_cons_self
    simp only [Path.IsSpecial, not_or] at hname
    rw [lexically, if_neg (by simp [hname]), if_neg hname.2.2,
      ih fun other hother ↦ hl other (List.mem_cons_of_mem name hother), ← List.append_cons]

namespace Path

/-! ### Reading and normalizing -/

/-- Repeated separators are one, and the one at the end leaves an empty name. -/
def ofText (text : String) : Path where
  absolute := text.toList.head? = some '/'
  names :=
    let pieces := (text.toList.splitOn '/').map String.ofList
    let names := pieces.filter (· ≠ "")
    if names ≠ [] ∧ pieces.getLast? = some "" then names ++ [""] else names

/-- The text of a path, as it is written. -/
def string (p : Path) : String :=
  String.ofList
    ((if p.absolute then ['/'] else []) ++ ['/'].intercalate (p.names.map String.toList))

/-- The names without the empty one of a last separator. -/
def withoutSeparator (names : List String) : List String :=
  if names.getLast? = some "" then names.dropLast else names

/-- `operator/=` with one name; an empty one adds a separator when there is none. -/
def appendName (names : List String) (name : String) : List String :=
  if name = "" ∧ names = [] then [] else withoutSeparator names ++ [name]

/-- What `name` does to the normal form `names` of what is in front of it. -/
def normalStep (absolute : Bool) (names : List String) (name : String) : List String :=
  if name = ".." then
    match (withoutSeparator names).getLast? with
    | none => if absolute then names else appendName names ".."
    | some ".." => appendName names ".."
    | some _ => appendName (withoutSeparator names).dropLast ""
  else if name = "." then appendName names ""
  else appendName names name

/-- `lexically_normal`. -/
def lexicallyNormal (p : Path) : Path :=
  if p.isEmpty then p
  else
    let names := p.names.foldl (normalStep p.absolute) []
    let names := if names.getLast? = some "" ∧ (withoutSeparator names).getLast? = some ".." then
      withoutSeparator names else names
    if names = [] ∧ p.absolute = false then ⟨false, ["."]⟩ else ⟨p.absolute, names⟩

/-! ### Absolute paths -/

section Absolute

variable {l : Location} {name : String} {names : List String}

/-- A location as a path, with a separator at its end or without. -/
def spelled (l : Location) (separator : Bool) : List String :=
  if separator = true ∧ l ≠ [] then l ++ [""] else l

/-- The path ends in a name that leads nowhere else or to the directory above. -/
def endsSpecial (names : List String) : Bool :=
  names.getLast?.any fun name ↦ decide (IsSpecial name)

theorem withoutSeparator_spelled (hl : Plain l) (separator : Bool) :
    withoutSeparator (spelled l separator) = l := by
  unfold withoutSeparator spelled
  split_ifs with hseparator hlast hlast
  · rw [List.dropLast_concat]
  · simp at hlast
  · exact absurd hlast (hl.getLast?_ne (Or.inl rfl))
  · rfl

theorem spelled_eq_nil {separator : Bool} : spelled l separator = [] ↔ l = [] := by
  unfold spelled
  split_ifs with hseparator
  · simp [hseparator.2]
  · rfl

theorem appendName_empty (hl : Plain l) (separator : Bool) :
    appendName (spelled l separator) "" = spelled l true := by
  unfold appendName
  simp only [withoutSeparator_spelled hl, spelled_eq_nil, true_and]
  by_cases hnil : l = [] <;> simp [hnil, spelled]

theorem appendName_of_ne (hl : Plain l) (separator : Bool) (hname : name ≠ "") :
    appendName (spelled l separator) name = l ++ [name] := by
  unfold appendName
  rw [withoutSeparator_spelled hl, if_neg fun h ↦ hname h.1]

/-- One name more leads on, and is left at the end as a separator when it is special. -/
theorem normalStep_spelled (hl : Plain l) (separator : Bool) (name : String) :
    normalStep true (spelled l separator) name =
      spelled (lexically l [name]) (decide (IsSpecial name)) := by
  unfold normalStep
  rw [withoutSeparator_spelled hl]
  by_cases hup : name = ".."
  · subst hup
    have hlead : lexically l [".."] = l.dropLast := by simp [lexically]
    rw [if_pos rfl, hlead]
    split
    · rename_i hnil
      rw [List.getLast?_eq_none_iff] at hnil
      simp [hnil, spelled]
    · rename_i hlast
      exact absurd hlast (hl.getLast?_ne (Or.inr (Or.inr rfl)))
    · exact appendName_empty hl.dropLast false
  rw [if_neg hup]
  by_cases hdot : name = "."
  · subst hdot
    exact appendName_empty hl separator
  rw [if_neg hdot]
  by_cases hempty : name = ""
  · subst hempty
    exact appendName_empty hl separator
  · have hname : ¬ IsSpecial name := by simp [IsSpecial, hempty, hdot, hup]
    have hlead : lexically l [name] = l ++ [name] := by simp [lexically, hempty, hdot, hup]
    rw [appendName_of_ne hl separator hempty, hlead]
    simp [spelled, hname]

theorem foldl_normalStep (names : List String) :
    names.foldl (normalStep true) [] = spelled (lexically [] names) (endsSpecial names) := by
  induction names using List.reverseRecOn with
  | nil => rfl
  | append_singleton names name ih =>
    have hplain : Plain (lexically [] names) := lexically_plain (by simp [Plain]) names
    rw [List.foldl_concat, ih, normalStep_spelled hplain, lexically_append]
    simp [endsSpecial]

/-- The normal form of an absolute path is where it leads, with a separator behind it when the path
ends in a special name. -/
theorem lexicallyNormal_absolute (names : List String) :
    (⟨true, names⟩ : Path).lexicallyNormal =
      ⟨true, spelled (lexically [] names) (endsSpecial names)⟩ := by
  have hplain : Plain (lexically [] names) := lexically_plain (by simp [Plain]) names
  have hup : (lexically [] names).getLast? ≠ some ".." := hplain.getLast?_ne (Or.inr (Or.inr rfl))
  simp [lexicallyNormal, isEmpty, foldl_normalStep, withoutSeparator_spelled hplain, hup]

example : (ofText "/a//b/..").lexicallyNormal = ⟨true, ["a", ""]⟩ := by decide

example : (ofText "../x/../../a/.").lexicallyNormal = ⟨false, ["..", "..", "a", ""]⟩ := by decide

/-- Two normal forms of one location. -/
theorem spelled_eq_spelled {l' : Location} {separator separator' : Bool} (hl : Plain l)
    (hl' : Plain l') : spelled l separator = spelled l' separator' ↔
      l = l' ∧ (l = [] ∨ separator = separator') := by
  constructor
  · intro heq
    have hlocation : l = l' := by
      rw [← withoutSeparator_spelled hl separator, heq, withoutSeparator_spelled hl']
    refine ⟨hlocation, ?_⟩
    subst hlocation
    by_cases hnil : l = []
    · exact Or.inl hnil
    · cases separator <;> cases separator' <;> simp_all [spelled]
  · rintro ⟨rfl, rfl | rfl⟩
    · simp [spelled]
    · rfl

end Absolute

/-! ### Writing -/

/-- What an entry can be called. That no name contains a NUL is assumed of all texts. -/
def IsFilename (name : String) : Prop := ¬ IsSpecial name ∧ '/' ∉ name.toList

instance : DecidablePred IsFilename := fun name ↦
  inferInstanceAs (Decidable (¬ IsSpecial name ∧ '/' ∉ name.toList))

section Writing

variable {names : List String}

theorem IsFilename.ne_empty {name : String} (hname : IsFilename name) : name ≠ "" :=
  fun h ↦ hname.1 (Or.inl h)

theorem plain_of_isFilename (hnames : ∀ name ∈ names, IsFilename name) : Plain names :=
  fun name hname ↦ (hnames name hname).1

theorem not_mem_of_mem_splitOn {chars piece : List Char} {c : Char}
    (hpiece : piece ∈ chars.splitOn c) : c ∉ piece := by
  induction chars generalizing piece with
  | nil =>
    obtain rfl : piece = [] := by simpa using hpiece
    exact List.not_mem_nil
  | cons char chars ih =>
    rw [List.splitOn_cons_eq_if_modifyHead] at hpiece
    split_ifs at hpiece with hchar
    · rcases List.mem_cons.mp hpiece with rfl | hpiece
      · exact List.not_mem_nil
      · exact ih hpiece
    · rcases hpieces : chars.splitOn c with _ | ⟨first, rest⟩
      · simp [hpieces] at hpiece
      rw [hpieces] at ih hpiece
      rcases List.mem_cons.mp hpiece with rfl | hpiece
      · rw [List.mem_cons, not_or]
        exact ⟨fun h ↦ hchar (by simp [h]), ih List.mem_cons_self⟩
      · exact ih (List.mem_cons_of_mem _ hpiece)

/-- No name that is read contains a separator. -/
theorem separator_not_mem_ofText {text name : String} (hname : name ∈ (ofText text).names) :
    '/' ∉ name.toList := by
  have hpieces : name = "" ∨ name ∈ (text.toList.splitOn '/').map String.ofList := by
    simp only [ofText] at hname
    split_ifs at hname
    · rcases List.mem_append.mp hname with hname | hname
      · exact Or.inr (List.mem_filter.mp hname).1
      · exact Or.inl (List.mem_singleton.mp hname)
    · exact Or.inr (List.mem_filter.mp hname).1
  rcases hpieces with rfl | hpiece
  · simp
  · obtain ⟨piece, hmem, rfl⟩ := List.mem_map.mp hpiece
    rw [String.toList_ofList]
    exact not_mem_of_mem_splitOn hmem

theorem splitOn_string (hnames : ∀ name ∈ names, '/' ∉ name.toList) (hne : names ≠ []) :
    (string ⟨true, names⟩).toList.splitOn '/' = [] :: names.map String.toList := by
  have hjoin : ['/'] ++ ['/'].intercalate (names.map String.toList) =
      ['/'].intercalate ([] :: names.map String.toList) := by
    rcases names with _ | ⟨name, names⟩
    · exact absurd rfl hne
    · simp [List.intercalate]
  rw [string, String.toList_ofList, if_pos rfl, hjoin, List.splitOn_intercalate]
  · simpa using hnames
  · simp

/-- The text of an absolute path of filenames is read as the path. -/
theorem ofText_string (hnames : ∀ name ∈ names, IsFilename name) :
    ofText (string ⟨true, names⟩) = ⟨true, names⟩ := by
  by_cases hne : names = []
  · subst hne
    decide
  have hsplit := splitOn_string (fun name hname ↦ (hnames name hname).2) hne
  have hfilter : names.filter (· ≠ "") = names :=
    List.filter_eq_self.mpr fun name hname ↦ by simpa using (hnames name hname).ne_empty
  have hlast : names.getLast? ≠ some "" := fun h ↦
    (hnames "" (List.mem_of_mem_getLast? h)).ne_empty rfl
  have hpieces : (([] :: names.map String.toList).map String.ofList) = "" :: names := by
    simp [Function.comp_def]
  have hends : ("" :: names).getLast? = names.getLast? := by
    obtain ⟨name, rest, rfl⟩ := List.exists_cons_of_ne_nil hne
    rw [List.getLast?_cons_cons]
  have habsolute : (string ⟨true, names⟩).toList.head? = some '/' := by simp [string]
  simp only [ofText, hsplit, hpieces, habsolute, hends, List.filter_cons, ne_eq, not_true_eq_false,
    decide_false, Bool.false_eq_true, if_false, hfilter, hlast, and_false, decide_true]

end Writing

end Path

/-! ### The directory of a normal form -/

namespace FileSystem

variable {Byte : Type} {fs : FileSystem Byte}

/-- What a directory lies in is a directory. -/
theorem directory_above {here below : Location}
    (hnode : fs.nodes (here ++ below) = some .directory) : fs.nodes here = some .directory := by
  induction below using List.reverseRecOn with
  | nil => rwa [List.append_nil] at hnode
  | append_singleton below name ih =>
    rw [← List.append_assoc] at hnode
    exact ih (fs.parent_directory (here ++ below) name (by rw [hnode]; exact Option.some_ne_none _))

/-- What an entry lies in is there. -/
theorem node_above {here below : Location} (hnode : fs.nodes (here ++ below) ≠ none) :
    fs.nodes here ≠ none := by
  induction below using List.reverseRecOn with
  | nil => rwa [List.append_nil] at hnode
  | append_singleton below name ih =>
    rw [← List.append_assoc] at hnode
    exact ih (by simp [fs.parent_directory (here ++ below) name hnode])

/-- The names of a directory lead to it, with what follows them. -/
theorem leads_of_plain {mode : Lookup} {links : ℕ} {here l c : Location} {names : List String}
    (hl : Path.Plain l) (hnode : fs.nodes (here ++ l) = some .directory)
    (hlead : Leads fs.nodes mode links (here ++ l) names c) :
    Leads fs.nodes mode links here (l ++ names) c := by
  induction l generalizing here with
  | nil => rwa [List.append_nil] at hlead
  | cons name l ih =>
    rw [List.append_cons] at hnode hlead
    exact .enter (directory_above (directory_above hnode)) (hl name List.mem_cons_self)
      (directory_above hnode) (by simp)
      (ih (fun other hother ↦ hl other (List.mem_cons_of_mem name hother)) hnode hlead)

theorem resolve_spelled {l : Location} (hl : Path.Plain l) (hnode : fs.nodes l = some .directory)
    (separator : Bool) : fs.resolve .target ⟨true, Path.spelled l separator⟩ = .ok l := by
  refine resolve_eq_ok_iff.mpr ⟨rfl, ?_⟩
  show Leads fs.nodes .target maxLinks [] (Path.spelled l separator) l
  unfold Path.spelled
  split_ifs
  · exact leads_of_plain hl hnode (.stay hnode (Or.inl rfl) .done)
  · have hlead : Leads fs.nodes .target maxLinks [] (l ++ []) l := leads_of_plain hl hnode .done
    rwa [List.append_nil] at hlead

/-- Where more names lead from the directory that a path names. -/
theorem leads_append {nodes : Location → Option Node} {mode : Lookup} {links : ℕ}
    {here c d : Location} {names more : List String}
    (hlead : Leads nodes .target links here names c)
    (hmore : ∀ links, Leads nodes mode links c more d) (hne : more ≠ []) :
    Leads nodes mode links here (names ++ more) d := by
  induction hlead with
  | done => exact hmore _
  | stay hhere hname _ ih => exact .stay hhere hname (ih hmore)
  | up hhere _ ih => exact .up hhere (ih hmore)
  | enter hhere hname hnode hlink _ ih => exact .enter hhere hname hnode hlink (ih hmore)
  | miss _ _ _ hmiss => simp at hmiss
  | last _ _ _ hlast => simp at hlast
  | link hhere hname hnode _ _ ih =>
    refine .link hhere hname hnode (fun h ↦ hne (List.append_eq_nil_iff.mp h.1).2) ?_
    have hrest := ih hmore
    rwa [List.append_assoc] at hrest

/-- The names of an entry below a directory lead to it. -/
theorem leads_entry {links : ℕ} {here below : Location} (hbelow : Path.Plain below)
    (hne : below ≠ []) (hnode : fs.nodes (here ++ below) ≠ none) :
    Leads fs.nodes .entry links here below (here ++ below) := by
  obtain ⟨above, name, rfl⟩ := (List.eq_nil_or_concat below).resolve_left hne
  rw [List.concat_eq_append] at hbelow hnode ⊢
  have habove : Path.Plain above := by simpa using hbelow.dropLast
  have hname : ¬ Path.IsSpecial name := hbelow name (by simp)
  rw [← List.append_assoc] at hnode ⊢
  have hdirectory := fs.parent_directory _ _ hnode
  refine leads_of_plain habove hdirectory ?_
  obtain ⟨node, hnode⟩ := Option.ne_none_iff_exists'.mp hnode
  by_cases hlink : ∃ path, node = .link path
  · obtain ⟨path, rfl⟩ := hlink
    exact .last hdirectory hname hnode rfl
  · exact .enter hdirectory hname hnode (not_exists.mp hlink) .done

/-- A last separator does not change which directory a path names. -/
theorem resolve_unspelled {root l : Location} {separator : Bool}
    (hresolve : fs.resolve .target ⟨true, Path.spelled l separator⟩ = .ok root) :
    fs.resolve .target ⟨true, l⟩ = .ok root := by
  unfold Path.spelled at hresolve
  split_ifs at hresolve with hseparator
  · obtain ⟨-, hlead⟩ := resolve_eq_ok_iff.mp hresolve
    obtain ⟨c, hpre, hc⟩ := hlead.of_append (List.cons_ne_nil _ _)
    have hagain : Leads fs.nodes .target maxLinks [] (l ++ [""]) c :=
      leads_append hpre (fun _ ↦ .stay hc (Or.inl rfl) .done) (List.cons_ne_nil _ _)
    have heq := (resolve_eq_ok_iff.mpr ⟨rfl, hagain⟩).symm.trans hresolve
    obtain rfl := Except.ok.inj heq
    exact resolve_eq_ok_iff.mpr ⟨rfl, hpre⟩
  · exact hresolve

end FileSystem

end WsServer.Foundations
