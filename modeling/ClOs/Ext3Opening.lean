import ClOs.Ext3Deletion
import ClOs.Ext3Handles
import ClOs.FileCreation
import ClOs.ReturningWalks

/-!
# Opening a path

`ext3_open` follows links without counting them, and takes for a link whatever has
one of the two mode bits of `0xA000`: a regular file has one of them.  Following
writes nothing, so the targets are those on the volume before the call.
-/

namespace ClOs.Ext3

/-! ## Links -/

/-- `mode >> 12`: 4 is a directory, 8 a regular file and 10 a symlink. -/
def Inode.fileType (inode : Inode) : ℕ := inode.mode / 4096

/-- What `ext3_read_symlink` reads from the inode of a link. -/
def linkTarget (v : Volume) (inode : Inode) : Outcome (Option CString) :=
  match kmalloc v (u32 (inode.size + 1)) with
  | none => return none
  | some result => do
      let bytes ← targetBytes v inode
      let filled ← result.load 0 bytes inode.size
      return some (((List.range inode.size).map filled.bytes).takeWhile (· ≠ 0))

/-- The path is that of a link, and `target` is what it holds. -/
def LinksTo (v : Volume) (path target : CString) : Prop :=
  ∃ inode n, findFile v path = .ok (some (inode, n)) ∧
    inode.fileType = 10 ∧ ext3ReadSymlink v path = .ok (some target)

def LeadsTo (v : Volume) (path : CString) (inode : Inode) (n : ℕ) : Prop :=
  ∃ last, Relation.ReflTransGen (LinksTo v) path last ∧
    findFile v last = .ok (some (inode, n))

/-- `ext3_open` goes on from a path to the bytes of what it takes for a link. -/
def Follows (v : Volume) (path target : CString) : Prop :=
  ∃ inode n, findFile v path = .ok (some (inode, n)) ∧
    inode.isLink = true ∧ ext3ReadSymlink v path = .ok (some target)

def Creates (flags : ℕ) : Prop := flags &&& 0x02 ≠ 0

/-- The lookup of a path returns, and so does what the call does next: it reads the
link that it found, or creates the file that it did not find. -/
structure Answers (v : Volume) (flags : ℕ) (path : CString) : Prop where
  lookup : ∃ found, findFile v path = .ok found
  link : ∀ inode n, findFile v path = .ok (some (inode, n)) →
    inode.isLink = true → ∃ target, ext3ReadSymlink v path = .ok target
  creation : findFile v path = .ok none → Creates flags →
    ∃ result, ext3WriteFile v path (fun _ => 0) 0 = .ok result

/-- `ext3_open` returns, with a handle on the regular file or directory that the
links lead to, and it changes nothing when nothing is to be created. -/
structure OpensRight (v : Volume) (path : CString) (flags : ℕ) : Prop where
  returns : ∃ calls result, ext3Open calls v path flags = .ok result
  handle : ∀ inode n, LeadsTo v path inode n →
    inode.fileType = 8 ∨ inode.fileType = 4 →
      ∃ calls file next, ext3Open calls v path flags = .ok (some file, next) ∧
        file.inodeNum = n ∧ file.inode = inode
  keeps : ¬Creates flags ∨ (∃ found, findFile v path = .ok (some found)) →
    ∀ calls opened next, ext3Open calls v path flags = .ok (opened, next) →
      next.disk = v.disk

/-- Every path that is followed gets an answer and none comes back, the links do
not lead to a regular file, and nothing is created at the end of a chain that
starts from an existing path. -/
structure OpensWhen (v : Volume) (path : CString) (flags : ℕ) : Prop where
  answers : ∀ last, Relation.ReflTransGen (Follows v) path last →
    Answers v flags last
  ends : ¬ComesBack (Follows v) path
  notFile : ∀ inode n, LeadsTo v path inode n → inode.fileType ≠ 8
  nothingCreated : Creates flags →
    (∃ found, findFile v path = .ok (some found)) →
      ∀ last, Relation.ReflTransGen (Follows v) path last →
        findFile v last = .ok none → ∀ written next,
          ext3WriteFile v last (fun _ => 0) 0 = .ok (written, next) →
            next.disk = v.disk

section

variable {v : Volume} {path target last : CString} {flags n : ℕ}
  {inode : Inode}

theorem fileType_and (inode : Inode) (mask : ℕ) :
    (inode.mode &&& mask * 4096) = (inode.fileType &&& mask) * 4096 := by
  have hdiv : inode.mode >>> 12 = inode.fileType := by
    rw [Nat.shiftRight_eq_div_pow]
    rfl
  apply Nat.eq_of_testBit_eq
  intro i
  have hmask : mask * 4096 = mask <<< 12 := by rw [Nat.shiftLeft_eq]
  have hright : (inode.fileType &&& mask) * 4096 =
      (inode.fileType &&& mask) <<< 12 := by rw [Nat.shiftLeft_eq]
  rw [hmask, hright, Nat.testBit_and, Nat.testBit_shiftLeft,
    Nat.testBit_shiftLeft, Nat.testBit_and, ← hdiv, Nat.testBit_shiftRight]
  by_cases hi : 12 ≤ i
  · rw [Nat.add_sub_cancel' hi]
    simp [hi, Bool.and_comm]
  · simp [hi]

theorem isLink_iff (inode : Inode) :
    inode.isLink = true ↔ inode.fileType &&& 10 ≠ 0 := by
  have hand := fileType_and inode 10
  unfold Inode.isLink
  rw [show (0xA000 : ℕ) = 10 * 4096 by norm_num, hand]
  simp

theorem LinksTo.follows (h : LinksTo v path target) : Follows v path target := by
  obtain ⟨inode, n, hfind, htype, hread⟩ := h
  refine ⟨inode, n, hfind, (isLink_iff inode).2 ?_, hread⟩
  rw [htype]
  decide

theorem Follows.unique
    {other : CString} (h : Follows v path target) (h' : Follows v path other) :
    target = other := by
  obtain ⟨-, -, -, -, hread⟩ := h
  obtain ⟨-, -, -, -, hread'⟩ := h'
  rw [hread] at hread'
  cases hread'
  rfl

theorem ext3ReadSymlink_eq
    (hfind : findFile v path = .ok (some (inode, n)))
    (hlink : inode.isLink = true) :
    ext3ReadSymlink v path = linkTarget v inode := by
  unfold ext3ReadSymlink linkTarget
  rw [hfind]
  exact if_pos hlink

theorem findDirEntry_lt
    {d : ℕ} {name : CString} (h : findDirEntry v d name = .ok (some n)) :
    n < 4294967296 := by
  unfold findDirEntry at h
  rw [Outcome.bind_eq_ok] at h
  obtain ⟨directory, -, h⟩ := h
  rw [Outcome.bind_eq_ok] at h
  obtain ⟨loaded, -, h⟩ := h
  cases loaded with
  | none => cases h
  | some buffer =>
      rw [Outcome.bind_eq_ok] at h
      obtain ⟨⟨offset, found⟩, -, h⟩ := h
      simp only at h
      split_ifs at h
      · rw [Outcome.bind_eq_ok] at h
        obtain ⟨entry, -, h⟩ := h
        cases h
        exact ByteStore.le32_lt entry 0
      · cases h

theorem findFile_lt (h : findFile v path = .ok (some (inode, n))) :
    n < 4294967296 := by
  rcases findFile_named h with rfl | ⟨d, name, -, hfound⟩
  · decide
  · exact findDirEntry_lt hfound

def targetOf (v : Volume) (n : ℕ) : CString :=
  match readInode v n with
  | .ok inode =>
      match linkTarget v inode with
      | .ok (some target) => target
      | _ => []
  | _ => []

theorem Follows.target_eq (h : Follows v path target) :
    ∃ n < 4294967296, targetOf v n = target := by
  obtain ⟨inode, n, hfind, hlink, hread⟩ := h
  refine ⟨n, findFile_lt hfind, ?_⟩
  rw [ext3ReadSymlink_eq hfind hlink] at hread
  have hinode := (findFile_eq_some.1 hfind).2.1
  unfold targetOf
  simp only [hinode, hread]

/-- There are no more targets than inodes, so a long chain of links comes back. -/
theorem exists_not_walksOn (h : ¬ComesBack (Follows v) path) :
    ∃ count, ¬WalksOn (Follows v) count path := by
  let targets := insert path ((Finset.range 4294967296).image (targetOf v))
  refine ⟨targets.card + 1, fun hwalk => h (hwalk.comesBack ?_
    (Nat.lt_succ_self _))⟩
  rintro node next hreach -
  rcases hreach.cases_tail with rfl | ⟨before, -, hstep⟩
  · exact Finset.mem_insert_self _ _
  · obtain ⟨n, hn, htarget⟩ := hstep.target_eq
    exact Finset.mem_insert_of_mem
      (Finset.mem_image.2 ⟨n, Finset.mem_range.2 hn, htarget⟩)

/-! ## One call and the calls behind it -/

/-- What a call is left with at a path that it does not follow: a handle on an
inode that is no link, or nothing. -/
inductive Stops (v : Volume) (flags : ℕ) (path : CString) :
    Option File × Volume → Prop
  | opened {inode : Inode} {n : ℕ} (file : File)
      (hfind : findFile v path = .ok (some (inode, n)))
      (hlink : inode.isLink = false)
      (hnumber : file.inodeNum = n) (hinode : file.inode = inode) :
      Stops v flags path (some file, v)
  | unread
      (hlinks : ∀ inode n, findFile v path = .ok (some (inode, n)) →
        inode.isLink = true)
      (hnone : ∀ target, ¬Follows v path target)
      (hcreate : findFile v path = .ok none → ¬Creates flags) :
      Stops v flags path (none, v)
  | created {next : Volume}
      (hfind : findFile v path = .ok none) (hcreate : Creates flags)
      (hwrite : ext3WriteFile v path (fun _ => 0) 0 = .ok (0, next)) :
      Stops v flags path (none, next)

theorem not_follows_of_missing
    (hfind : findFile v path = .ok none) (target : CString) :
    ¬Follows v path target := by
  rintro ⟨inode, n, hother, -⟩
  rw [hfind] at hother
  cases hother

theorem Stops.not_follows
    {result : Option File × Volume} (h : Stops v flags path result)
    (target : CString) : ¬Follows v path target := by
  cases h with
  | opened file hfind hlink =>
      rintro ⟨inode, n, hother, hother', -⟩
      rw [hfind] at hother
      cases hother
      rw [hlink] at hother'
      cases hother'
  | unread hlinks hnone => exact hnone target
  | created hfind => exact not_follows_of_missing hfind target

theorem ext3Open_answers
    (h : Answers v flags path) (calls : ℕ) :
    (∃ target, Follows v path target ∧
      ext3Open (calls + 1) v path flags = ext3Open calls v target flags) ∨
    ∃ result, Stops v flags path result ∧
      ext3Open (calls + 1) v path flags = .ok result := by
  obtain ⟨found, hfind⟩ := h.lookup
  cases found with
  | none =>
      by_cases hcreate : Creates flags
      · obtain ⟨⟨written, next⟩, hwrite⟩ := h.creation hfind hcreate
        obtain rfl := ext3WriteFile_zero hwrite
        refine .inr ⟨_, .created hfind hcreate hwrite, ?_⟩
        unfold Creates at hcreate
        simp [ext3Open, hfind, hcreate, hwrite, bind, Except.bind, pure,
          Except.pure]
      · refine .inr ⟨_, .unread (fun inode n hother => ?_)
          (not_follows_of_missing hfind) (fun _ => hcreate), ?_⟩
        · rw [hfind] at hother
          cases hother
        · unfold Creates at hcreate
          simp [ext3Open, hfind, hcreate, bind, Except.bind, pure, Except.pure]
  | some found =>
      obtain ⟨inode, n⟩ := found
      by_cases hlink : inode.isLink = true
      · obtain ⟨target, hread⟩ := h.link inode n hfind hlink
        cases target with
        | none =>
            refine .inr ⟨_, .unread (fun other m hother => ?_) ?_ ?_, ?_⟩
            · rw [hfind] at hother
              cases hother
              exact hlink
            · rintro target ⟨-, -, -, -, hother⟩
              rw [hread] at hother
              cases hother
            · intro hother
              rw [hfind] at hother
              cases hother
            · simp [ext3Open, hfind, hlink, hread, bind, Except.bind, pure,
                Except.pure]
        | some target =>
            refine .inl ⟨target, ⟨inode, n, hfind, hlink, hread⟩, ?_⟩
            simp [ext3Open, hfind, hlink, hread, bind, Except.bind, pure,
              Except.pure]
      · let file : File := {
          inodeNum := n
          position := 0
          size := inode.size
          flags := flags
          inode := inode
          path := path
          size_lt := ByteStore.le32_lt inode 4 }
        refine .inr ⟨_, .opened file hfind (by simpa using hlink) rfl rfl, ?_⟩
        simp only [ext3Open, hfind, hlink, bind, Except.bind, pure, Except.pure]
        rfl

/-- A call that returns has got an answer. -/
theorem answers_of_ext3Open
    {calls : ℕ} {result : Option File × Volume}
    (h : ext3Open calls v path flags = .ok result) : Answers v flags path := by
  cases calls with
  | zero => cases h
  | succ calls =>
      unfold ext3Open at h
      rw [Outcome.bind_eq_ok] at h
      obtain ⟨⟨found, next⟩, hfound, h⟩ := h
      rw [Outcome.bind_eq_ok] at hfound
      obtain ⟨looked, hfind, hfound⟩ := hfound
      refine ⟨⟨looked, hfind⟩, fun inode n hother hlink => ?_,
        fun hother hcreate => ?_⟩
      · rw [hfind] at hother
        cases hother
        cases hfound
        simp only [hlink, if_true] at h
        rw [Outcome.bind_eq_ok] at h
        obtain ⟨target, hread, -⟩ := h
        exact ⟨target, hread⟩
      · rw [hfind] at hother
        cases hother
        unfold Creates at hcreate
        simp only [hcreate, ne_eq, not_false_eq_true, if_true] at hfound
        rw [Outcome.bind_eq_ok] at hfound
        obtain ⟨written, hwrite, -⟩ := hfound
        exact ⟨written, hwrite⟩

theorem ext3Open_stops
    {calls : ℕ} {result : Option File × Volume}
    (h : ext3Open calls v path flags = .ok result) :
    ∃ last, Relation.ReflTransGen (Follows v) path last ∧
      Stops v flags last result := by
  induction calls generalizing path with
  | zero => cases h
  | succ calls ih =>
      rcases ext3Open_answers (answers_of_ext3Open h) calls with
        ⟨target, hstep, hcall⟩ | ⟨other, hstops, hcall⟩
      · rw [hcall] at h
        obtain ⟨last, hreach, hstops⟩ := ih h
        exact ⟨last, hreach.head hstep, hstops⟩
      · rw [hcall] at h
        cases h
        exact ⟨path, .refl, hstops⟩

theorem ext3Open_of_not_walksOn
    (hanswers : ∀ last, Relation.ReflTransGen (Follows v) path last →
      Answers v flags last)
    {count : ℕ} (h : ¬WalksOn (Follows v) count path) :
    ∃ calls result, ext3Open calls v path flags = .ok result := by
  induction count generalizing path with
  | zero => exact absurd trivial h
  | succ count ih =>
      rcases ext3Open_answers (hanswers path .refl) 0 with
        ⟨target, hstep, -⟩ | ⟨result, -, hcall⟩
      · obtain ⟨calls, result, hrest⟩ :=
          ih (fun last hreach => hanswers last (hreach.head hstep))
            (fun hwalk => h ⟨target, hstep, hwalk⟩)
        rcases ext3Open_answers (hanswers path .refl) calls with
          ⟨other, hother, hcall⟩ | ⟨result, hstops, -⟩
        · obtain rfl := hstep.unique hother
          exact ⟨calls + 1, result, hcall.trans hrest⟩
        · exact absurd hstep (hstops.not_follows target)
      · exact ⟨1, result, hcall⟩

theorem comesBack_of_follows
    (hstep : Follows v path target) (h : ComesBack (Follows v) path) :
    ComesBack (Follows v) target := by
  obtain ⟨next, hnext, hrest⟩ := h.step
  rwa [hstep.unique hnext]

theorem ext3Open_returns_iff :
    (∃ calls result, ext3Open calls v path flags = .ok result) ↔
      (∀ last, Relation.ReflTransGen (Follows v) path last →
        Answers v flags last) ∧ ¬ComesBack (Follows v) path := by
  constructor
  · rintro ⟨calls, result, h⟩
    induction calls generalizing path with
    | zero => cases h
    | succ calls ih =>
        have hanswers := answers_of_ext3Open h
        rcases ext3Open_answers hanswers calls with
          ⟨target, hstep, hcall⟩ | ⟨other, hstops, -⟩
        · obtain ⟨hrest, hends⟩ := ih (hcall.symm.trans h)
          refine ⟨fun last hreach => ?_,
            fun hback => hends (comesBack_of_follows hstep hback)⟩
          rcases hreach.cases_head with rfl | ⟨next, hnext, hreach⟩
          · exact hanswers
          · obtain rfl := hstep.unique hnext
            exact hrest last hreach
        · refine ⟨fun last hreach => ?_, fun hback => ?_⟩
          · rcases hreach.cases_head with rfl | ⟨next, hnext, -⟩
            · exact hanswers
            · exact absurd hnext (hstops.not_follows next)
          · obtain ⟨next, hnext, -⟩ := hback.step
            exact hstops.not_follows next hnext
  · rintro ⟨hanswers, hends⟩
    obtain ⟨count, hcount⟩ := exists_not_walksOn hends
    exact ext3Open_of_not_walksOn hanswers hcount

/-- A chain of links stops at one path. -/
theorem follows_stop_unique
    {other : CString}
    (hlast : Relation.ReflTransGen (Follows v) path last)
    (hother : Relation.ReflTransGen (Follows v) path other)
    (hstop : ∀ target, ¬Follows v last target)
    (hstop' : ∀ target, ¬Follows v other target) : last = other := by
  have hunique : Relator.RightUnique (Follows v) :=
    fun _ _ _ h h' => h.unique h'
  rcases Relation.ReflTransGen.total_of_right_unique hunique hlast hother with
    hpath | hpath
  · rcases hpath.cases_head with rfl | ⟨next, hnext, -⟩
    · rfl
    · exact absurd hnext (hstop next)
  · rcases hpath.cases_head with rfl | ⟨next, hnext, -⟩
    · rfl
    · exact absurd hnext (hstop' next)

end

theorem ext3Open_opensRight_iff (v : Volume) (path : CString) (flags : ℕ) :
    OpensRight v path flags ↔ OpensWhen v path flags := by
  constructor
  · intro h
    obtain ⟨hanswers, hends⟩ := ext3Open_returns_iff.1 h.returns
    refine ⟨hanswers, hends, fun inode n hleads htype => ?_,
      fun hcreate hexists last hreach hmissing written next hwrite => ?_⟩
    · obtain ⟨calls, file, next, hcall, -, hinode⟩ :=
        h.handle inode n hleads (.inl htype)
      obtain ⟨last, -, hstops⟩ := ext3Open_stops hcall
      cases hstops with
      | opened file hfind hlink hnumber hfile =>
          have hfalse : inode.isLink = true := by
            rw [isLink_iff, htype]
            decide
          rw [← hinode, hfile, hlink] at hfalse
          cases hfalse
    · obtain ⟨calls, ⟨opened, after⟩, hcall⟩ := h.returns
      obtain ⟨other, hother, hstops⟩ := ext3Open_stops hcall
      obtain rfl := follows_stop_unique hreach hother
        (not_follows_of_missing hmissing) hstops.not_follows
      have hkept := h.keeps (.inr hexists) _ _ _ hcall
      cases hstops with
      | opened file hfind =>
          rw [hmissing] at hfind
          cases hfind
      | unread hlinks hnone hcreate' => exact absurd hcreate (hcreate' hmissing)
      | created hfind hcreate' hwrite' =>
          rw [hwrite] at hwrite'
          cases hwrite'
          exact hkept
  · rintro ⟨hanswers, hends, hnotFile, hnothing⟩
    have hreturns := ext3Open_returns_iff.2 ⟨hanswers, hends⟩
    refine ⟨hreturns, fun inode n ⟨last, hreach, hfind⟩ htype => ?_,
      fun hcase calls opened next hcall => ?_⟩
    · have hdirectory : inode.fileType = 4 :=
        htype.resolve_left (hnotFile inode n ⟨last, hreach, hfind⟩)
      have hlink : ¬inode.isLink = true := by
        rw [isLink_iff, hdirectory]
        decide
      have hstop : ∀ target, ¬Follows v last target := by
        rintro target ⟨other, m, hother, hlink', -⟩
        rw [hfind] at hother
        cases hother
        exact hlink hlink'
      obtain ⟨calls, ⟨opened, next⟩, hcall⟩ := hreturns
      obtain ⟨other, hother, hstops⟩ := ext3Open_stops hcall
      obtain rfl := follows_stop_unique
        (Relation.ReflTransGen.mono (fun _ _ h => LinksTo.follows h) _ _ hreach)
        hother hstop hstops.not_follows
      cases hstops with
      | opened file hfind' hlink' hnumber hinode =>
          rw [hfind] at hfind'
          cases hfind'
          exact ⟨calls, file, v, hcall, hnumber, hinode⟩
      | unread hlinks => exact absurd (hlinks inode n hfind) hlink
      | created hmissing =>
          rw [hfind] at hmissing
          cases hmissing
    · obtain ⟨last, hreach, hstops⟩ := ext3Open_stops hcall
      cases hstops with
      | opened => rfl
      | unread => rfl
      | created hmissing hcreate hwrite =>
          rcases hcase with hnot | hexists
          · exact absurd hcreate hnot
          · exact hnothing hcreate hexists last hreach hmissing _ _ hwrite

/-- The regular file `/h` of five bytes is taken for a link, and the path that its
block numbers spell does not exist. -/
theorem ext3Open_regularFile :
    ((ext3Open 2 shortLink [47, 104] 0).satisfies fun result =>
        result.1.isNone) = true ∧
      ¬OpensRight shortLink [47, 104] 0 := by
  have htest : (findFile shortLink [47, 104]).satisfies (fun found =>
      found.any fun found => found.1.fileType = 8) = true := by
    decide +kernel
  obtain ⟨⟨inode, n⟩, hfind, hfile⟩ := Outcome.exists_some_of_satisfies htest
  have htype : inode.fileType = 8 := of_decide_eq_true hfile
  refine ⟨by decide +kernel, fun h => ?_⟩
  obtain ⟨calls, file, next, hcall, -, hinode⟩ :=
    h.handle inode n ⟨_, .refl, hfind⟩ (.inl htype)
  obtain ⟨last, -, hstops⟩ := ext3Open_stops hcall
  cases hstops with
  | opened file hfind hlink hnumber hfile =>
      have hfalse : inode.isLink = true := by
        rw [isLink_iff, htype]
        decide
      rw [← hinode, hfile, hlink] at hfalse
      cases hfalse

end ClOs.Ext3
