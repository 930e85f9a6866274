import ClOs.Ext3FileReads
import Mathlib.Data.List.GetD
import Mathlib.Data.List.ReduceOption

/-!
# Open files as cursors

`ext3_read`, `ext3_seek`, `ext3_tell` and `ext3_eof` on one handle are the calls of
a cursor over the contents of the file.  A byte of a block that is not there is
missing from the contents, and a read ends before it.
-/

namespace ClOs

/-! ## Cursors -/

/-- A place in a list of values of which some may be missing. -/
structure Cursor (α : Type) where
  content : List (Option α)
  position : ℕ
  position_le : position ≤ content.length

namespace Cursor

variable {α : Type}

/-- The values from the place on, up to a count, the end or a missing one. -/
def ahead (c : Cursor α) (count : ℕ) : List α :=
  (((c.content.drop c.position).take count).takeWhile Option.isSome).reduceOption

theorem length_ahead_le (c : Cursor α) (count : ℕ) :
    (c.ahead count).length ≤ min count (c.content.length - c.position) := by
  unfold ahead
  refine (List.reduceOption_length_le _).trans ?_
  refine (List.takeWhile_sublist _).length_le.trans ?_
  rw [List.length_take, List.length_drop]

def moveTo (c : Cursor α) (target : ℕ) : Cursor α where
  content := c.content
  position := min target c.content.length
  position_le := Nat.min_le_right _ _

/-- The values are handed out, and the place is behind them then. -/
def read (c : Cursor α) (count : ℕ) : List α × Cursor α :=
  (c.ahead count, c.moveTo (c.position + (c.ahead count).length))

def atEnd (c : Cursor α) : Bool := c.content.length ≤ c.position

/-- Reads one after another. -/
def readAll (c : Cursor α) : List ℕ → List α × Cursor α
  | [] => ([], c)
  | count :: rest =>
      let later := (c.read count).2.readAll rest
      ((c.read count).1 ++ later.1, later.2)

section

variable {c : Cursor α} {values : List α}

theorem read_position (count : ℕ) :
    (c.read count).2.position = c.position + (c.ahead count).length := by
  have hle := c.length_ahead_le count
  have hposition := c.position_le
  unfold read moveTo
  simp only
  omega

/-- Of contents without a missing value a read takes what it can. -/
theorem ahead_complete
    (hcontent : c.content = values.map some) (count : ℕ) :
    c.ahead count = (values.drop c.position).take count := by
  unfold ahead
  rw [hcontent, ← List.map_drop, ← List.map_take]
  generalize (values.drop c.position).take count = rest
  induction rest with
  | nil => rfl
  | cons value rest ih => simpa [List.takeWhile_cons, List.reduceOption] using ih

/-- Reads one after another take the contents in order. -/
theorem readAll_complete
    (hcontent : c.content = values.map some) (counts : List ℕ) :
    (c.readAll counts).1 = (values.drop c.position).take counts.sum ∧
      (c.readAll counts).2.content = c.content ∧
        (c.readAll counts).2.position =
          min (c.position + counts.sum) values.length := by
  have hlength : c.content.length = values.length := by
    rw [hcontent, List.length_map]
  induction counts generalizing c with
  | nil =>
      have hposition := c.position_le
      refine ⟨by simp [readAll], rfl, ?_⟩
      simp only [readAll, List.sum_nil, Nat.add_zero]
      omega
  | cons count rest ih =>
      have hmoved := @read_position α c count
      have hahead := ahead_complete hcontent count
      have hkept : (c.read count).2.content = c.content := rfl
      obtain ⟨hvalues, hcontent', hposition⟩ :=
        @ih (c.read count).2 (hkept.trans hcontent) (hkept ▸ hlength)
      have htaken : (c.ahead count).length =
          min count (values.length - c.position) := by
        rw [hahead, List.length_take, List.length_drop]
      unfold readAll
      simp only [List.sum_cons]
      refine ⟨?_, hcontent'.trans hkept, ?_⟩
      · have hdrop : values.drop (c.position + (c.ahead count).length) =
            (values.drop c.position).drop count := by
          rw [List.drop_drop, htaken]
          rcases Nat.le_total count (values.length - c.position) with hle | hge
          · rw [Nat.min_eq_left hle]
          · rw [List.drop_eq_nil_of_le (by omega), List.drop_eq_nil_of_le (by omega)]
        rw [hvalues, hmoved, hdrop, List.take_add]
        exact congrArg (· ++ _) hahead
      · rw [hposition, hmoved, htaken]
        have hbound := c.position_le
        omega

end

end Cursor

namespace Ext3

open ByteStore

/-! ## Calls on a handle -/

/-- The `switch` of `ext3_seek`. -/
def seekTarget (file : File) (offset whence : ℕ) : ℕ :=
  match whence with
  | 0 => u32 offset
  | 1 => u32 (file.position + offset)
  | 2 => sub32 file.size (u32 offset)
  | _ => file.position

def ext3Seek (file : File) (offset whence : ℕ) : ℕ × File :=
  let target := seekTarget file offset whence
  let position := if file.size < target then file.size else target
  (position, { file with position := position })

def ext3Tell (file : File) : ℕ := file.position

def ext3Eof (file : File) : Bool := file.size ≤ file.position

inductive FileCall
  | read (buffer : ByteStore) (size : ℕ)
  | seek (offset whence : ℕ)
  | tell
  | eof

/-- What a call returns, and the buffer of a read. -/
inductive FileReply
  | bytes (count : ℕ) (buffer : ByteStore)
  | position (value : ℕ)
  | ended (value : Bool)

def FileCall.run (v : Volume) (file : File) :
    FileCall → Outcome (FileReply × File)
  | read buffer size => do
      let (count, filled, file) ← ext3Read v file buffer size
      return (.bytes count filled, file)
  | seek offset whence =>
      .ok (.position (ext3Seek file offset whence).1,
        (ext3Seek file offset whence).2)
  | tell => .ok (.position (ext3Tell file), file)
  | eof => .ok (.ended (ext3Eof file), file)

def runFile (v : Volume) : List FileCall → File → Outcome (List FileReply × File)
  | [], file => .ok ([], file)
  | call :: rest, file => do
      let (reply, file) ← call.run v file
      let (replies, last) ← runFile v rest file
      return (reply :: replies, last)

/-! ## The cursor of a handle -/

/-- The bytes of a file, without those of blocks that are not there. -/
def File.contents (v : Volume) (file : File) : List (Option UInt8) :=
  (List.range file.size).map fun k =>
    if mappedAt v file.inode k then some (deliveredAt v file.inode k) else none

theorem File.length_contents (v : Volume) (file : File) :
    (file.contents v).length = file.size := by
  unfold File.contents
  rw [List.length_map, List.length_range]

def File.cursor (v : Volume) (file : File) (h : file.position ≤ file.size) :
    Cursor UInt8 where
  content := file.contents v
  position := file.position
  position_le := by rwa [file.length_contents]

def seekPlace (c : Cursor UInt8) (offset whence : ℕ) : ℕ :=
  match whence with
  | 0 => u32 offset
  | 1 => u32 (c.position + offset)
  | 2 =>
      if u32 offset ≤ c.content.length then c.content.length - u32 offset
      else c.content.length
  | _ => c.position

def FileCall.give (c : Cursor UInt8) : FileCall → FileReply × Cursor UInt8
  | read buffer size =>
      (.bytes (c.ahead size).length (buffer.blit 0
        (fun k => (c.ahead size).getD k 0) (c.ahead size).length),
        (c.read size).2)
  | seek offset whence =>
      (.position (c.moveTo (seekPlace c offset whence)).position,
        c.moveTo (seekPlace c offset whence))
  | tell => (.position c.position, c)
  | eof => (.ended c.atEnd, c)

def giveFile : List FileCall → Cursor UInt8 → List FileReply × Cursor UInt8
  | [], c => ([], c)
  | call :: rest, c =>
      let later := giveFile rest (call.give c).2
      ((call.give c).1 :: later.1, later.2)

section

variable {v : Volume} {file : File}

theorem takeWhile_runLength
    (test : ℕ → Bool) (value : ℕ → UInt8) (start count : ℕ) :
    (((List.range count).map fun k =>
        if test (start + k) then some (value (start + k)) else none).takeWhile
          Option.isSome).reduceOption =
      (List.range (runLength test start count)).map fun k => value (start + k) := by
  induction count generalizing start with
  | zero => rfl
  | succ count ih =>
      rw [List.range_succ_eq_map, List.map_cons, List.map_map, runLength_succ,
        Nat.add_zero]
      by_cases hpass : test start = true
      · have hrest := ih (start + 1)
        simp only [Nat.add_assoc, Nat.add_comm 1] at hrest
        rw [if_pos hpass, if_pos hpass, List.takeWhile_cons_of_pos rfl,
          List.reduceOption_cons_of_some, List.range_succ_eq_map, List.map_cons,
          List.map_map, Nat.add_zero]
        exact congrArg (value start :: ·) hrest
      · rw [if_neg hpass, if_neg hpass, List.takeWhile_cons_of_neg (by simp)]
        rfl

/-- The bytes that a read finds are those that it counts. -/
theorem cursor_ahead (h : file.position ≤ file.size) (size : ℕ) :
    (file.cursor v h).ahead size =
      (List.range (file.available v size)).map fun k =>
        deliveredAt v file.inode (file.position + k) := by
  have hcut : ((List.range file.size).drop file.position).take size =
      (List.range (min size (file.size - file.position))).map
        (file.position + ·) := by
    rw [List.range_eq_range', List.drop_range', List.range'_eq_map_range,
      ← List.map_take, List.take_range]
    simp
  unfold Cursor.ahead File.cursor File.contents File.available
  simp only
  rw [← List.map_drop, ← List.map_take, hcut, List.map_map]
  exact takeWhile_runLength (mappedAt v file.inode) (deliveredAt v file.inode) _ _

theorem cursor_ahead_length (h : file.position ≤ file.size) (size : ℕ) :
    ((file.cursor v h).ahead size).length = file.available v size := by
  rw [cursor_ahead, List.length_map, List.length_range]

theorem clamp_eq (target size : ℕ) :
    (if size < target then size else target) = min target size := by
  split_ifs <;> omega

/-- The cursor of a handle that stands somewhere else. -/
theorem cursor_moveTo
    (h : file.position ≤ file.size) {target position : ℕ}
    (hposition : position = min target file.size) :
    ∃ h', File.cursor v { file with position := position } h' =
      (file.cursor v h).moveTo target := by
  subst hposition
  refine ⟨Nat.min_le_right _ _, ?_⟩
  unfold File.cursor Cursor.moveTo
  simp only [file.length_contents]
  rfl

theorem FileCall.run_eq
    (h : file.position ≤ file.size) (call : FileCall) :
    ∃ position h', call.run v file =
        .ok ((call.give (file.cursor v h)).1, { file with position := position }) ∧
      File.cursor v { file with position := position } h' =
        (call.give (file.cursor v h)).2 := by
  cases call with
  | read buffer size =>
      have hlength := @cursor_ahead_length v file h size
      obtain ⟨-, hroom⟩ := file.available_le v size
      obtain ⟨h', hcursor⟩ := @cursor_moveTo v file h
        (file.position + file.available v size)
        (file.position + file.available v size) (by omega)
      refine ⟨file.position + file.available v size, h', ?_, ?_⟩
      · simp only [FileCall.run, FileCall.give, ext3Read_eq v file buffer size h,
          bind, Except.bind, pure, Except.pure, hlength]
        have hbytes : buffer.blit 0
            (fun k => deliveredAt v file.inode (file.position + k))
              (file.available v size) =
            buffer.blit 0 (fun k => ((file.cursor v h).ahead size).getD k 0)
              (file.available v size) := by
          refine blit_congr buffer fun k hk => ?_
          rw [cursor_ahead, List.getD_eq_getElem _ _ (by simpa using hk),
            List.getElem_map, List.getElem_range]
        rw [hbytes]
      · rw [hcursor]
        simp only [FileCall.give, Cursor.read, hlength]
        rfl
  | seek offset whence =>
      have hlength := file.length_contents v
      have hsize := file.size_lt
      have hplace : (ext3Seek file offset whence).1 =
          min (seekPlace (file.cursor v h) offset whence) file.size := by
        have hcontent : (file.cursor v h).content.length = file.size := hlength
        have hoffset := u32_lt offset
        rcases whence with - | - | - | whence
        · exact clamp_eq _ _
        · exact clamp_eq _ _
        · simp only [ext3Seek, seekTarget, seekPlace, hcontent]
          rw [clamp_eq]
          by_cases hinside : u32 offset ≤ file.size
          · rw [sub32_of_le hinside hsize, if_pos hinside]
          · have hwrapped : file.size ≤ sub32 file.size (u32 offset) := by
              unfold sub32 u32 at *
              omega
            rw [if_neg hinside, Nat.min_eq_right hwrapped, Nat.min_self]
        · exact clamp_eq _ _
      obtain ⟨h', hcursor⟩ := @cursor_moveTo v file h
        (seekPlace (file.cursor v h) offset whence) _ hplace
      refine ⟨_, h', ?_, hcursor⟩
      have hmoved : (FileCall.give (file.cursor v h) (seek offset whence)).1 =
          .position (ext3Seek file offset whence).1 := by
        rw [hplace, ← hlength]
        rfl
      rw [hmoved]
      rfl
  | tell => exact ⟨file.position, h, rfl, rfl⟩
  | eof =>
      refine ⟨file.position, h, ?_, rfl⟩
      unfold FileCall.run FileCall.give ext3Eof Cursor.atEnd File.cursor
      simp only [file.length_contents]

/-- Calls on a handle are the calls on its cursor, whatever their order. -/
theorem runFile_cursor
    (h : file.position ≤ file.size) (calls : List FileCall) :
    ∃ position h', runFile v calls file =
        .ok ((giveFile calls (file.cursor v h)).1,
          { file with position := position }) ∧
      File.cursor v { file with position := position } h' =
        (giveFile calls (file.cursor v h)).2 := by
  induction calls generalizing file with
  | nil => exact ⟨file.position, h, rfl, rfl⟩
  | cons call rest ih =>
      obtain ⟨middle, hmiddle, hcall, hcursor⟩ := @FileCall.run_eq v file h call
      obtain ⟨position, h', hrest, hlast⟩ := ih hmiddle
      rw [hcursor] at hrest hlast
      refine ⟨position, h', ?_, hlast⟩
      unfold runFile
      simp only [hcall, bind, Except.bind, hrest]
      rfl

theorem runFile_cursor_shortFile :
    ∃ position h',
      runFile bootCode [.tell, .read (fun _ => 7) 4, .seek 1 0,
          .read (fun _ => 7) 20, .eof] shortFile =
        .ok ((giveFile [.tell, .read (fun _ => 7) 4, .seek 1 0,
            .read (fun _ => 7) 20, .eof]
          (shortFile.cursor bootCode (by decide))).1,
          { shortFile with position := position }) ∧
      File.cursor bootCode { shortFile with position := position } h' =
        (giveFile [.tell, .read (fun _ => 7) 4, .seek 1 0,
            .read (fun _ => 7) 20, .eof]
          (shortFile.cursor bootCode (by decide))).2 :=
  runFile_cursor (by decide) _

/-! ## Reading a file from end to end -/

def FileReply.taken : FileReply → List UInt8
  | bytes count buffer => (List.range count).map buffer
  | _ => []

/-- Reads of some sizes, each into its own buffer. -/
def fileReads (reads : List (ByteStore × ℕ)) : List FileCall :=
  reads.map fun read => .read read.1 read.2

theorem giveFile_reads (c : Cursor UInt8) (reads : List (ByteStore × ℕ)) :
    (giveFile (fileReads reads) c).1.flatMap FileReply.taken =
        (c.readAll (reads.map Prod.snd)).1 ∧
      (giveFile (fileReads reads) c).2 = (c.readAll (reads.map Prod.snd)).2 := by
  induction reads generalizing c with
  | nil => exact ⟨rfl, rfl⟩
  | cons read rest ih =>
      obtain ⟨hvalues, hlast⟩ := ih (c.read read.2).2
      refine ⟨?_, hlast⟩
      have htaken :
          (FileCall.give c (.read read.1 read.2)).1.taken = c.ahead read.2 := by
        unfold FileCall.give FileReply.taken
        apply List.ext_getElem
        · rw [List.length_map, List.length_range]
        · intro k hk hk'
          rw [List.getElem_map, List.getElem_range,
            blit_inside _ _ (Nat.zero_le k) (by omega), Nat.sub_zero,
            List.getD_eq_getElem _ _ hk']
      have hstep : (giveFile (fileReads (read :: rest)) c).1 =
          (FileCall.give c (.read read.1 read.2)).1 ::
            (giveFile (fileReads rest) (c.read read.2).2).1 := rfl
      rw [hstep, List.flatMap_cons, htaken, hvalues]
      rfl

/-- Reads one after another deliver a file without missing blocks in order, and
nothing behind its end. -/
theorem runFile_reads
    (h : file.position ≤ file.size)
    (hmapped : ∀ k < file.size, mappedAt v file.inode k = true)
    (reads : List (ByteStore × ℕ)) :
    ∃ replies, runFile v (fileReads reads) file =
        .ok (replies, { file with
          position := min (file.position + (reads.map Prod.snd).sum) file.size }) ∧
      replies.flatMap FileReply.taken =
        (((List.range file.size).map (deliveredAt v file.inode)).drop
          file.position).take (reads.map Prod.snd).sum := by
  have hcontent : (file.cursor v h).content =
      ((List.range file.size).map (deliveredAt v file.inode)).map some := by
    rw [List.map_map]
    refine List.map_congr_left fun k hk => ?_
    rw [if_pos (hmapped k (List.mem_range.1 hk))]
    rfl
  obtain ⟨position, h', hrun, hlast⟩ := @runFile_cursor v file h (fileReads reads)
  obtain ⟨hvalues, hend⟩ := giveFile_reads (file.cursor v h) reads
  obtain ⟨hbytes, -, hposition⟩ :=
    Cursor.readAll_complete hcontent (reads.map Prod.snd)
  have hplace : position =
      min (file.position + (reads.map Prod.snd).sum) file.size := by
    rw [hend] at hlast
    have hstand := congrArg Cursor.position hlast
    rw [hposition, List.length_map, List.length_range] at hstand
    exact hstand
  rw [hplace] at hrun
  exact ⟨_, hrun, hvalues.trans hbytes⟩

theorem runFile_reads_shortFile :
    ∃ replies,
      runFile bootCode (fileReads [(fun _ => 7, 3), (fun _ => 7, 20)]) shortFile =
        .ok (replies, { shortFile with position := 10 }) ∧
      replies.flatMap FileReply.taken =
        (((List.range 10).map (deliveredAt bootCode shortFile.inode)).drop 4).take
          23 :=
  runFile_reads (by decide) (by decide) [(fun _ => 7, 3), (fun _ => 7, 20)]

end

end Ext3

end ClOs
