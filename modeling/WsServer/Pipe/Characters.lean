import WsServer.Pipe.Model

/-!
# Characters of several bytes

`InputBuf` is the input side of `BasicPipeBuf<CharT>` with `w` bytes to a character: `buffer_in_` in
bytes, and the pointers counted in characters. `underflow` turns the count of bytes that `read`
returns into a count of characters and starts again at the beginning of the buffer, so that what a
read leaves over of a character is lost, and a read of less than a character returns one that
`read` has not filled. `regrouped_iff` says which reads avoid both.

Bytes carry their place in the stream; what the buffer does with them does not depend on it
(`map_readToEnd`). A character is never taken for `eof`, as its traits promise.
-/

set_option autoImplicit false
set_option relaxedAutoImplicit false

namespace WsServer.Pipe

section Input

variable {Byte : Type}

structure InputBuf (Byte : Type) where
  fd : Option ℕ
  bufferIn : List Byte
  gptr : ℕ
  egptr : ℕ
  deriving DecidableEq

/-- The character number `i` of a buffer. -/
def character (w : ℕ) (bufferIn : List Byte) (i : ℕ) : List Byte := (bufferIn.drop (i * w)).take w

/-- `*gptr()`. -/
def InputBuf.current (w : ℕ) (b : InputBuf Byte) : List Byte := character w b.bufferIn b.gptr

namespace InputBuf

/-- `underflow`; `bytes` is what `read` delivers, none at the end of the file and on an error, and
`eof` is returned as none. -/
def underflow (w : ℕ) (b : InputBuf Byte) (bytes : List Byte) :
    InputBuf Byte × Option (List Byte) :=
  if b.fd = none then (b, none)
  else if b.gptr < b.egptr then (b, some (b.current w))
  else if bytes = [] then (b, none)
  else
    let elementsRead := bytes.length / w
    let b := { b with
      bufferIn := bytes ++ b.bufferIn.drop bytes.length, gptr := 0, egptr := elementsRead }
    (b, some (b.current w))

/-- `sbumpc`, which calls the inherited `uflow` when the get area is used up. -/
def sbumpc (w : ℕ) (b : InputBuf Byte) (bytes : List Byte) : InputBuf Byte × Option (List Byte) :=
  if b.gptr < b.egptr then ({ b with gptr := b.gptr + 1 }, some (b.current w))
  else
    match b.underflow w bytes with
    | (b, none) => (b, none)
    | (b, some _) => ({ b with gptr := b.gptr + 1 }, some (b.current w))

end InputBuf

/-- A reader with the results of the calls of `read` to come. -/
structure Reader (Byte : Type) where
  buf : InputBuf Byte
  reads : List (List Byte)

/-- `sbumpc` with the next result of `read`, if it is asked for. -/
def Reader.next (w : ℕ) (r : Reader Byte) : Reader Byte × Option (List Byte) :=
  if r.buf.gptr < r.buf.egptr then
    let (buf, c) := r.buf.sbumpc w []
    ({ r with buf := buf }, c)
  else
    let (buf, c) := r.buf.sbumpc w (r.reads.headD [])
    ({ buf := buf, reads := r.reads.tail }, c)

variable {w : ℕ} {b : InputBuf Byte} {r r' : Reader Byte} {c : List Byte}

theorem next_of_lt (hlt : r.buf.gptr < r.buf.egptr) :
    r.next w = ({ r with buf := { r.buf with gptr := r.buf.gptr + 1 } },
      some (r.buf.current w)) := by
  simp [Reader.next, InputBuf.sbumpc, hlt]

/-- A call of `read` that delivers something. -/
theorem next_of_read {fd : ℕ} {bytes : List Byte} {reads : List (List Byte)} (hfd : b.fd = some fd)
    (hge : b.egptr ≤ b.gptr) (hbytes : bytes ≠ []) :
    Reader.next w { buf := b, reads := bytes :: reads } =
      ({ buf := { b with
          bufferIn := bytes ++ b.bufferIn.drop bytes.length, gptr := 1, egptr := bytes.length / w }
         reads := reads },
        some (character w (bytes ++ b.bufferIn.drop bytes.length) 0)) := by
  simp [Reader.next, InputBuf.sbumpc, InputBuf.underflow, InputBuf.current, hfd, hbytes,
    Nat.not_lt.mpr hge]

theorem next_of_end (hge : b.egptr ≤ b.gptr) :
    (Reader.next w { buf := b, reads := [] }).2 = none := by
  by_cases hfd : b.fd = none <;>
    simp [Reader.next, InputBuf.sbumpc, InputBuf.underflow, hfd, Nat.not_lt.mpr hge]

/-- A call that returns a character uses up a result of `read` or shortens the get area. -/
theorem next_decreases (hnext : r.next w = (r', some c)) :
    Prod.Lex (· < ·) (· < ·) (r'.reads.length, r'.buf.egptr - r'.buf.gptr)
      (r.reads.length, r.buf.egptr - r.buf.gptr) := by
  by_cases hlt : r.buf.gptr < r.buf.egptr
  · rw [next_of_lt hlt] at hnext
    obtain ⟨rfl, -⟩ := Prod.mk.inj hnext
    exact .right _ (by simp only; omega)
  · obtain ⟨buf, reads⟩ := r
    cases reads with
    | nil =>
      have hnone := next_of_end (w := w) (Nat.not_lt.mp hlt)
      rw [hnext] at hnone
      cases hnone
    | cons bytes reads =>
      have hreads : r'.reads = reads := by
        rw [← congrArg (fun x ↦ x.1.reads) hnext, Reader.next, if_neg hlt]
        rfl
      exact .left _ _ (by simp [hreads])

/-- The characters that are obtained by calling `sbumpc` until it returns `eof`. -/
def readToEnd (w : ℕ) (r : Reader Byte) : List (List Byte) :=
  match _hnext : r.next w with
  | (_, none) => []
  | (r', some c) => c :: readToEnd w r'
termination_by (r.reads.length, r.buf.egptr - r.buf.gptr)
decreasing_by exact next_decreases _hnext

/-- What is left of the get area comes first. -/
theorem readToEnd_getArea (r : Reader Byte) (hle : r.buf.gptr ≤ r.buf.egptr) :
    readToEnd w r =
      (List.range' r.buf.gptr (r.buf.egptr - r.buf.gptr)).map (character w r.buf.bufferIn) ++
        readToEnd w { r with buf := { r.buf with gptr := r.buf.egptr } } := by
  induction hn : r.buf.egptr - r.buf.gptr generalizing r with
  | zero =>
    have heq : { r with buf := { r.buf with gptr := r.buf.egptr } } = r := by
      rw [show r.buf.egptr = r.buf.gptr by omega]
    rw [heq]
    rfl
  | succ n ih =>
    rw [readToEnd, next_of_lt (by omega)]
    simp only
    rw [ih _ (by simp only; omega) (by simp only; omega), List.range'_succ]
    rfl

/-- Nothing is left in the get area. -/
structure UsedUp (fd : ℕ) (b : InputBuf Byte) : Prop where
  fd_eq : b.fd = some fd
  egptr_le : b.egptr ≤ b.gptr

theorem readToEnd_end (hge : b.egptr ≤ b.gptr) : readToEnd w { buf := b, reads := [] } = [] := by
  rw [readToEnd]
  have hnone := next_of_end (w := w) hge
  split
  · rfl
  · next heq => rw [heq] at hnone; cases hnone

/-! ### Groups of bytes -/

/-- A stream cut into groups of `w` bytes; what is left at the end is no group. -/
def groups (w : ℕ) (stream : List Byte) : List (List Byte) :=
  (List.range (stream.length / w)).map (character w stream)

variable {stream rest : List Byte}

theorem character_append {i : ℕ} (hi : i < stream.length / w) :
    character w (stream ++ rest) i = character w stream i := by
  have hfit : (i + 1) * w ≤ stream.length :=
    (Nat.mul_le_mul_right w hi).trans (Nat.div_mul_le_self _ _)
  rw [Nat.succ_mul] at hfit
  rw [character, character, List.drop_append_of_le_length (by omega),
    List.take_append_of_le_length (by rw [List.length_drop]; omega)]

theorem character_skip (hdvd : w ∣ stream.length) (i : ℕ) :
    character w (stream ++ rest) (stream.length / w + i) = character w rest i := by
  rw [character, character, Nat.add_mul, Nat.div_mul_cancel hdvd, List.drop_length_add_append]

/-- What comes before does not change the groups when no part of a group is left over. -/
theorem groups_append (hdvd : w ∣ stream.length) :
    groups w (stream ++ rest) = groups w stream ++ groups w rest := by
  rw [groups, List.length_append, Nat.add_div_of_dvd_right hdvd, List.range_add, List.map_append,
    List.map_map]
  congr 1
  · refine List.map_congr_left fun i hi ↦ character_append (List.mem_range.mp hi)
  · refine List.map_congr_left fun i _ ↦ character_skip hdvd i

/-- One result of `read` and the characters that are returned before the next. -/
theorem readToEnd_read {fd : ℕ} {bytes : List Byte} (hw : 0 < w) (hb : UsedUp fd b)
    (hbytes : bytes ≠ []) (reads : List (List Byte)) :
    ∃ b', UsedUp fd b' ∧ b'.bufferIn = bytes ++ b.bufferIn.drop bytes.length ∧
      readToEnd w { buf := b, reads := bytes :: reads } =
        (if bytes.length < w then [character w b'.bufferIn 0] else groups w bytes) ++
          readToEnd w { buf := b', reads := reads } := by
  let filled : InputBuf Byte :=
    { b with bufferIn := bytes ++ b.bufferIn.drop bytes.length, gptr := 1,
             egptr := bytes.length / w }
  have hfirst : readToEnd w { buf := b, reads := bytes :: reads } =
      character w filled.bufferIn 0 :: readToEnd w { buf := filled, reads := reads } := by
    rw [readToEnd, next_of_read hb.fd_eq hb.egptr_le hbytes]
  rw [hfirst]
  split_ifs with hshort
  · have hnone : bytes.length / w = 0 := Nat.div_eq_of_lt hshort
    exact ⟨filled, ⟨hb.fd_eq, hnone.trans_le (Nat.zero_le 1)⟩, rfl, rfl⟩
  · have hsome : 0 < bytes.length / w := Nat.div_pos (Nat.not_lt.mp hshort) hw
    have hgroups : groups w bytes =
        (List.range (bytes.length / w)).map (character w filled.bufferIn) :=
      List.map_congr_left fun i hi ↦ (character_append (List.mem_range.mp hi)).symm
    refine ⟨{ filled with gptr := filled.egptr }, ⟨hb.fd_eq, le_rfl⟩, rfl, ?_⟩
    rw [readToEnd_getArea { buf := filled, reads := reads } hsome, hgroups]
    obtain ⟨n, hn⟩ := Nat.exists_eq_succ_of_ne_zero hsome.ne'
    rw [hn, List.range_eq_range', List.range'_succ, List.map_cons,
      show filled.egptr - filled.gptr = n from congrArg (· - 1) hn]
    rfl

/-! ### Reads that fall on characters -/

/-- A stream as it is delivered by reads of the given counts of bytes. -/
def deliver : List ℕ → List Byte → List (List Byte)
  | [], _ => []
  | n :: counts, stream => stream.take n :: deliver counts (stream.drop n)

/-- Every read but the last delivers whole characters, and the last delivers one at least. -/
def Aligned (w : ℕ) : List ℕ → Prop
  | [] => True
  | [n] => w ≤ n
  | n :: m :: counts => w ∣ n ∧ Aligned w (m :: counts)

theorem head?_character (hw : 0 < w) (i : ℕ) :
    (character w stream i).head? = stream[i * w]? := by
  rw [character, List.head?_take, if_neg hw.ne', List.head?_drop]

/-- A read of less than a character returns one with a byte that was in the buffer before. -/
theorem exists_stale {bytes bufferIn : List Byte} (hshort : bytes.length < w)
    (hlong : w ≤ bufferIn.length) :
    ∃ c ∈ character w (bytes ++ bufferIn.drop bytes.length) 0, c ∈ bufferIn := by
  have hlt : bytes.length < bufferIn.length := by omega
  refine ⟨bufferIn[bytes.length], ?_, List.getElem_mem hlt⟩
  rw [character, Nat.zero_mul, List.drop_zero, List.mem_take_iff_getElem]
  refine ⟨bytes.length, ?_, ?_⟩
  · rw [List.length_append, List.length_drop]
    omega
  · simp [List.getElem_append_right]

theorem mem_of_mem_groups {group : List Byte} {c : Byte} (hgroup : group ∈ groups w stream)
    (hc : c ∈ group) : c ∈ stream := by
  obtain ⟨i, -, rfl⟩ := List.mem_map.mp hgroup
  exact List.mem_of_mem_drop (List.mem_of_mem_take hc)

/-- The first character after a read that ends inside a character is not the one due. -/
theorem groups_ne_of_not_dvd (hw : 0 < w) (hnodup : (stream ++ rest).Nodup) (hrest : rest ≠ [])
    (hdvd : ¬w ∣ stream.length) {cs : List (List Byte)} (hhead : c.head? = rest.head?) :
    groups w stream ++ c :: cs ≠ groups w (stream ++ rest) := by
  intro heq
  have hlength : (groups w stream).length = stream.length / w := by simp [groups]
  have hget : some c = (groups w (stream ++ rest))[stream.length / w]? := by
    rw [← heq, List.getElem?_append_right hlength.le, hlength, Nat.sub_self,
      List.getElem?_cons_zero]
  rw [groups, List.getElem?_map] at hget
  obtain ⟨i, hi, hc⟩ := Option.map_eq_some_iff.mp hget.symm
  obtain ⟨hlt, rfl⟩ := List.getElem?_eq_some_iff.mp hi
  rw [List.getElem_range] at hc
  have hinside : stream.length < (stream ++ rest).length := by
    have hpos := List.length_pos_iff.mpr hrest
    rw [List.length_append]
    omega
  have hsame : (stream ++ rest)[stream.length]? = (stream ++ rest)[stream.length / w * w]? := by
    rw [← head?_character hw, hc, hhead, List.getElem?_append_right le_rfl, Nat.sub_self,
      List.head?_eq_getElem?]
  exact hdvd (Dvd.intro_left _ ((List.getElem?_inj hinside hnodup).mp hsame).symm)

/-- A read that delivers something returns a character, which starts with its first byte. -/
theorem exists_first {fd : ℕ} {bytes : List Byte} (hw : 0 < w) (hb : UsedUp fd b)
    (hbytes : bytes ≠ []) (reads : List (List Byte)) :
    ∃ c cs, readToEnd w { buf := b, reads := bytes :: reads } = c :: cs ∧
      c.head? = bytes.head? := by
  rw [readToEnd, next_of_read hb.fd_eq hb.egptr_le hbytes]
  refine ⟨_, _, rfl, ?_⟩
  rw [head?_character hw, Nat.zero_mul, ← List.head?_eq_getElem?]
  exact List.head?_append_of_ne_nil _ hbytes

theorem aligned_cons {n : ℕ} {counts : List ℕ} (hcounts : counts ≠ []) :
    Aligned w (n :: counts) ↔ w ∣ n ∧ Aligned w counts := by
  obtain ⟨m, counts, rfl⟩ := List.exists_cons_of_ne_nil hcounts
  exact Iff.rfl

theorem le_of_aligned {n : ℕ} {counts : List ℕ} (hpos : 0 < n) (h : Aligned w (n :: counts)) :
    w ≤ n := by
  cases counts with
  | nil => exact h
  | cons m counts => exact Nat.le_of_dvd hpos h.1

/-- What a read of less than a character returns is no group of a stream without the bytes that were
in the buffer before. -/
theorem character_cons_ne_groups {bytes bufferIn : List Byte} {cs : List (List Byte)}
    (hshort : bytes.length < w) (hlong : w ≤ bufferIn.length)
    (hfresh : ∀ c ∈ bufferIn, c ∉ stream) :
    character w (bytes ++ bufferIn.drop bytes.length) 0 :: cs ≠ groups w stream := by
  intro heq
  obtain ⟨c, hc, hold⟩ := exists_stale hshort hlong
  have hgroup : character w (bytes ++ bufferIn.drop bytes.length) 0 ∈ groups w stream := by
    rw [← heq]
    exact List.mem_cons_self
  exact hfresh c hold (mem_of_mem_groups hgroup hc)

/-- A read that ends inside a character has the next one begin in the wrong place. -/
theorem readToEnd_ne_of_not_dvd {fd n : ℕ} {counts : List ℕ} (hw : 0 < w) (hb : UsedUp fd b)
    (hnodup : (stream ++ rest).Nodup) (hrest : rest ≠ []) (hdvd : ¬w ∣ stream.length)
    (hn : 0 < n) :
    groups w stream ++ readToEnd w { buf := b, reads := deliver (n :: counts) rest } ≠
      groups w (stream ++ rest) := by
  have htaken : rest.take n ≠ [] := by simp [hrest, hn.ne']
  obtain ⟨c, cs, hfirst, hhead⟩ := exists_first hw hb htaken (deliver counts (rest.drop n))
  rw [deliver, hfirst]
  exact groups_ne_of_not_dvd hw hnodup hrest hdvd
    (hhead.trans (by rw [List.head?_take, if_neg hn.ne']))

/-- When the bytes of the stream differ from each other and from those in the buffer, the characters
are the groups of the stream exactly when the reads fall on characters. -/
theorem readToEnd_deliver_iff {fd : ℕ} (hw : 0 < w) (hb : UsedUp fd b) {counts : List ℕ}
    (hcounts : ∀ n ∈ counts, 0 < n ∧ n ≤ b.bufferIn.length) (hlong : w ≤ b.bufferIn.length)
    (hsum : counts.sum = stream.length) (hnodup : stream.Nodup)
    (hfresh : ∀ c ∈ b.bufferIn, c ∉ stream) :
    readToEnd w { buf := b, reads := deliver counts stream } = groups w stream ↔
      Aligned w counts := by
  induction counts generalizing b stream with
  | nil =>
    obtain rfl : stream = [] := List.length_eq_zero_iff.mp hsum.symm
    refine iff_of_true ?_ trivial
    rw [deliver, readToEnd_end hb.egptr_le]
    simp [groups]
  | cons n counts ih =>
    obtain ⟨⟨hpos, hfits⟩, hothers⟩ := List.forall_mem_cons.mp hcounts
    rw [List.sum_cons] at hsum
    -- the stream is what this read delivers and what the others deliver
    obtain ⟨bytes, rest, rfl, rfl⟩ : ∃ bytes rest, stream = bytes ++ rest ∧ bytes.length = n :=
      ⟨stream.take n, stream.drop n, (List.take_append_drop n stream).symm, by
        rw [List.length_take]; omega⟩
    rw [List.length_append] at hsum
    have hbytes : bytes ≠ [] := List.length_pos_iff.mp hpos
    rw [deliver, List.take_left, List.drop_left]
    obtain ⟨b', hb', hbuffer, hread⟩ :=
      readToEnd_read hw hb hbytes (deliver counts rest)
    rw [hread]
    split_ifs with hshort
    · rw [hbuffer]
      exact iff_of_false (character_cons_ne_groups hshort hlong hfresh) fun haligned ↦
        absurd (le_of_aligned hpos haligned) (Nat.not_le.mpr hshort)
    · rcases eq_or_ne counts [] with rfl | hmore
      · obtain rfl : rest = [] := List.length_eq_zero_iff.mp (by simpa using hsum)
        rw [deliver, readToEnd_end hb'.egptr_le, List.append_nil, List.append_nil]
        exact iff_of_true rfl (Nat.not_lt.mp hshort)
      · rw [aligned_cons hmore]
        by_cases hdvd : w ∣ bytes.length
        · have hlength : b'.bufferIn.length = b.bufferIn.length := by
            rw [hbuffer, List.length_append, List.length_drop]
            omega
          rw [groups_append hdvd, List.append_cancel_left_eq, and_iff_right hdvd]
          refine ih hb' (by rwa [hlength]) (by rwa [hlength]) (by omega) hnodup.of_append_right
            fun c hc ↦ ?_
          rw [hbuffer, List.mem_append] at hc
          rcases hc with hc | hc
          · exact (List.disjoint_of_nodup_append hnodup) hc
          · exact fun hmem ↦ hfresh c (List.mem_of_mem_drop hc) (List.mem_append_right _ hmem)
        · obtain ⟨m, counts, rfl⟩ := List.exists_cons_of_ne_nil hmore
          obtain ⟨⟨hm, -⟩, -⟩ := List.forall_mem_cons.mp hothers
          rw [List.sum_cons] at hsum
          have hrest : rest ≠ [] := List.length_pos_iff.mp (by omega)
          exact iff_of_false (readToEnd_ne_of_not_dvd hw hb' hnodup hrest hdvd hm)
            fun haligned ↦ hdvd haligned.1

end Input

/-! ### Bytes of another type -/

section Map

variable {Byte Byte' : Type} (f : Byte → Byte') {w : ℕ}

def InputBuf.map (b : InputBuf Byte) : InputBuf Byte' := { b with bufferIn := b.bufferIn.map f }

def Reader.map (r : Reader Byte) : Reader Byte' :=
  { buf := r.buf.map f, reads := r.reads.map (List.map f) }

theorem map_character (bufferIn : List Byte) (i : ℕ) :
    character w (bufferIn.map f) i = (character w bufferIn i).map f := by
  rw [character, character, List.map_take, List.map_drop]

theorem map_sbumpc (b : InputBuf Byte) (bytes : List Byte) :
    (b.map f).sbumpc w (bytes.map f) =
      ((b.sbumpc w bytes).1.map f, (b.sbumpc w bytes).2.map (List.map f)) := by
  unfold InputBuf.sbumpc InputBuf.underflow
  by_cases hlt : b.gptr < b.egptr
  · simp [InputBuf.map, InputBuf.current, hlt, map_character]
  · cases hfd : b.fd <;> cases bytes <;>
      simp [InputBuf.map, InputBuf.current, hlt, hfd, ← map_character]

theorem map_next (r : Reader Byte) :
    (r.map f).next w = ((r.next w).1.map f, (r.next w).2.map (List.map f)) := by
  obtain ⟨b, reads⟩ := r
  have hnone := map_sbumpc f (w := w) b []
  have hread := map_sbumpc f (w := w) b (reads.headD [])
  have hhead : (reads.map (List.map f)).headD [] = (reads.headD []).map f := by
    cases reads <;> rfl
  by_cases hlt : b.gptr < b.egptr
  · simp only [Reader.next, Reader.map, InputBuf.map, hlt, if_true] at hnone ⊢
    rw [List.map_nil] at hnone
    rw [hnone]
  · simp only [Reader.next, Reader.map, InputBuf.map, hlt, if_false] at hread ⊢
    rw [hhead, hread, List.map_tail]

/-- The buffer does the same with bytes of another type. -/
theorem map_readToEnd (r : Reader Byte) :
    readToEnd w (r.map f) = (readToEnd w r).map (List.map f) := by
  induction r using readToEnd.induct w with
  | case1 r r' hnext =>
    rw [readToEnd, readToEnd, map_next, hnext]
    rfl
  | case2 r r' c hnext ih =>
    rw [readToEnd, map_next, hnext, readToEnd, hnext]
    exact congrArg _ ih

theorem map_deliver (counts : List ℕ) (stream : List Byte) :
    deliver counts (stream.map f) = (deliver counts stream).map (List.map f) := by
  induction counts generalizing stream with
  | nil => rfl
  | cons n counts ih =>
    rw [deliver, deliver, List.map_cons, List.map_take, ← List.map_drop, ih]

theorem map_groups (stream : List Byte) :
    groups w (stream.map f) = (groups w stream).map (List.map f) := by
  rw [groups, groups, List.length_map, List.map_map]
  exact List.map_congr_left fun i _ ↦ map_character f stream i

end Map

/-! ### Characters of one byte -/

section Single

variable {Byte : Type} {b : InputBuf Byte} {bytes : List Byte}

/-- The areas that are left of the pointers. -/
def InputBuf.toPipeBuf (b : InputBuf Byte) : PipeBuf Byte :=
  { fd := b.fd, putArea := [], getArea := (b.bufferIn.take b.egptr).drop b.gptr }

/-- The input side of `PipeBuf` is the buffer with one byte to a character. -/
theorem sbumpc_single (hfits : b.egptr ≤ b.bufferIn.length) :
    (sbumpc b.toPipeBuf bytes).1 = (b.sbumpc 1 bytes).1.toPipeBuf ∧
      (sbumpc b.toPipeBuf bytes).2.returned.map (fun c ↦ [c]) = (b.sbumpc 1 bytes).2 := by
  obtain ⟨fd, bufferIn, gptr, egptr⟩ := b
  simp only at hfits
  by_cases hlt : gptr < egptr
  · have hinside : gptr < bufferIn.length := hlt.trans_le hfits
    have harea : (bufferIn.take egptr).drop gptr =
        bufferIn[gptr] :: (bufferIn.take egptr).drop (gptr + 1) := by
      rw [List.drop_eq_getElem_cons (by rw [List.length_take]; omega), List.getElem_take]
    have hcurrent : (bufferIn.drop gptr).take 1 = [bufferIn[gptr]] := by
      rw [List.drop_eq_getElem_cons hinside, List.take_succ_cons, List.take_zero]
    simp [sbumpc, InputBuf.sbumpc, InputBuf.toPipeBuf, InputBuf.current, character, hlt, harea,
      hcurrent]
  · have harea : (bufferIn.take egptr).drop gptr = [] := by
      rw [List.drop_eq_nil_iff, List.length_take]
      omega
    cases fd <;> cases bytes <;>
      simp [sbumpc, underflow, InputBuf.sbumpc, InputBuf.underflow, InputBuf.toPipeBuf,
        InputBuf.current, character, hlt, harea]

theorem aligned_one {counts : List ℕ} (hcounts : ∀ n ∈ counts, 0 < n) : Aligned 1 counts := by
  induction counts with
  | nil => trivial
  | cons n counts ih =>
    obtain ⟨hpos, hothers⟩ := List.forall_mem_cons.mp hcounts
    rcases eq_or_ne counts [] with rfl | hmore
    · exact hpos
    · exact (aligned_cons hmore).mpr ⟨Nat.one_dvd n, ih hothers⟩

end Single

/-! ### Received bytes -/

/-- A byte with its place in the stream, none for a byte that was never received. -/
structure Placed where
  value : UInt8
  place : Option ℕ
  deriving DecidableEq

/-- The bytes of a stream with their places. -/
def place (stream : List UInt8) : List Placed :=
  stream.zipIdx.map fun x ↦ { value := x.1, place := some x.2 }

/-- A buffer that was opened and not been used yet. -/
def InputBuf.opened (w fd : ℕ) : InputBuf Placed :=
  { fd := some fd
    bufferIn := List.replicate (bufferSize * w) { value := 0, place := none }
    gptr := 0
    egptr := 0 }

section Placed

variable {w fd : ℕ} {stream : List UInt8} {counts : List ℕ}

theorem usedUp_opened : UsedUp fd (.opened w fd) := ⟨rfl, le_rfl⟩

theorem length_place : (place stream).length = stream.length := by simp [place]

theorem nodup_place : (place stream).Nodup := by
  have hindex : ((place stream).map Placed.place).Nodup := by
    rw [place, List.map_map, show Placed.place ∘ (fun x : UInt8 × ℕ ↦ ⟨x.1, some x.2⟩) =
      some ∘ Prod.snd from rfl, ← List.map_map, List.zipIdx_map_snd]
    exact List.Nodup.map (Option.some_injective ℕ) List.nodup_range'
  exact List.Nodup.of_map _ hindex

theorem value_place : (place stream).map Placed.value = stream := by
  rw [place, List.map_map]
  exact List.zipIdx_map_fst 0 stream

theorem place_ne_none : ∀ c ∈ place stream, c.place ≠ none := by
  intro c hmem
  obtain ⟨x, -, rfl⟩ := List.mem_map.mp hmem
  exact nofun

/-- The contents of a new buffer were never received. -/
theorem readToEnd_opened_iff (fd : ℕ) {received : List Placed} (hw : 0 < w)
    (hcounts : ∀ n ∈ counts, 0 < n ∧ n ≤ bufferSize * w) (hsum : counts.sum = received.length)
    (hnodup : received.Nodup) (hplaces : ∀ c ∈ received, c.place ≠ none) :
    readToEnd w { buf := .opened w fd, reads := deliver counts received } = groups w received ↔
      Aligned w counts := by
  have hlength : (InputBuf.opened w fd).bufferIn.length = bufferSize * w := List.length_replicate
  refine readToEnd_deliver_iff hw usedUp_opened (by rwa [hlength]) ?_ hsum hnodup
    fun c hc hmem ↦ ?_
  · rw [hlength]
    exact Nat.le_mul_of_pos_left w (by decide)
  · rw [List.eq_of_mem_replicate hc] at hmem
    exact hplaces _ hmem rfl

/-- Whole characters come out as they were sent, and characters of one byte always. -/
theorem readToEnd_values (hw : 0 < w) (hcounts : ∀ n ∈ counts, 0 < n ∧ n ≤ bufferSize * w)
    (hsum : counts.sum = stream.length) (haligned : w = 1 ∨ Aligned w counts) :
    readToEnd w { buf := (InputBuf.opened w fd).map Placed.value, reads := deliver counts stream } =
      groups w stream := by
  have hall : Aligned w counts := haligned.elim
    (fun hone ↦ hone ▸ aligned_one fun n hn ↦ (hcounts n hn).1) id
  have hplaced := (readToEnd_opened_iff fd hw hcounts (hsum.trans length_place.symm)
    nodup_place place_ne_none).mpr hall
  have hmap := map_readToEnd Placed.value (w := w)
    { buf := .opened w fd, reads := deliver counts (place stream) }
  rw [hplaced, ← map_groups, Reader.map, ← map_deliver, value_place] at hmap
  exact hmap

/-- For every width and every stream, however it is read, the characters up to the end are the
groups of the stream, with no byte lost, read twice or never received, exactly when every read but
the last delivers whole characters and the last delivers one at least. -/
theorem regrouped_iff (hw : 0 < w) (hcounts : ∀ n ∈ counts, 0 < n ∧ n ≤ bufferSize * w)
    (hsum : counts.sum = stream.length) :
    readToEnd w { buf := .opened w fd, reads := deliver counts (place stream) } =
      groups w (place stream) ↔ Aligned w counts := by
  exact readToEnd_opened_iff fd hw hcounts (hsum.trans length_place.symm) nodup_place place_ne_none

/-- A last character that is not complete is no character. -/
theorem regrouped_iff_example :
    readToEnd 2 { buf := .opened 2 3, reads := deliver [2, 3] (place [65, 0, 66, 0, 67]) } =
      groups 2 (place [65, 0, 66, 0, 67]) :=
  (regrouped_iff (by decide) (by decide) rfl).mpr ⟨by decide, Nat.le_succ 2⟩

/-- One character of four bytes that arrives in two halves. -/
theorem split_character :
    ¬∀ (w fd : ℕ) (stream : List UInt8) (counts : List ℕ), 0 < w →
      (∀ n ∈ counts, 0 < n ∧ n ≤ bufferSize * w) → counts.sum = stream.length →
      readToEnd w { buf := .opened w fd, reads := deliver counts (place stream) } =
        groups w (place stream) := by
  intro hall
  have heq := hall 4 3 [65, 0, 0, 0] [2, 2] (by decide) (by decide) rfl
  have haligned := (readToEnd_opened_iff 3 (by decide) (by decide) rfl nodup_place
    place_ne_none).mp heq
  exact absurd haligned.1 (by decide)

end Placed

end WsServer.Pipe
