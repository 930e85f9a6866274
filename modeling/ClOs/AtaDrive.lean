import ClOs.Disk

/-!
# The drive and its driver

`disk.c` talks to the drive through its ports: it polls the status, writes the
registers and a command, and moves the sectors word by word.  The drive is a state
machine beside it.  How long it works on a sector and whether it fails is left to a
sequence of answers, one for each look at the status of a busy drive.
-/

namespace ClOs.Ata

open ByteStore

/-! ## The drive -/

/-- What a look at a busy drive finds. -/
inductive Answer
  | busy
  | done
  | failed
  deriving DecidableEq

/-- What a busy drive works on.  The sectors that are left include the present
one. -/
inductive Task
  | fetch (lba left : ℕ)
  | prepare (lba left : ℕ)
  | store (lba left : ℕ) (data : ByteStore)
  | flush

/-- A drive is idle or busy, or it waits for the words of a sector to be read or
written. -/
inductive Phase
  | idle
  | busy (task : Task)
  | sending (lba left word : ℕ)
  | taking (lba left word : ℕ) (data : ByteStore)

structure Drive where
  disk : ByteStore
  driveReg : ℕ
  sectorCount : ℕ
  lbaLow : ℕ
  lbaMid : ℕ
  lbaHigh : ℕ
  phase : Phase
  error : Bool
  answers : ℕ → Answer
  time : ℕ

namespace Drive

/-- The sector number in the registers. -/
def lba (d : Drive) : ℕ :=
  d.lbaLow + 256 * d.lbaMid + 65536 * d.lbaHigh + 16777216 * (d.driveReg % 16)

/-- The number of sectors in the registers. -/
def count (d : Drive) : ℕ := if d.sectorCount = 0 then 256 else d.sectorCount

def finish (d : Drive) : Task → Drive
  | .fetch lba left => { d with phase := .sending lba left 0 }
  | .prepare lba left => { d with phase := .taking lba left 0 fun _ => 0 }
  | .store lba left data =>
      { d with
        disk := d.disk.blit (512 * lba) data 512
        phase := if left = 1 then .idle
          else .taking (lba + 1) (left - 1) 0 fun _ => 0 }
  | .flush => { d with phase := .idle }

/-- `ATA_SR_BSY`, `ATA_SR_DRQ` or neither, and `ATA_SR_ERR` beside the ready bit. -/
def status (d : Drive) : UInt8 :=
  match d.phase with
  | .busy _ => 0x80
  | .sending _ _ _ => 0x48
  | .taking _ _ _ _ => 0x48
  | .idle => if d.error then 0x41 else 0x40

def tick (d : Drive) : Drive := { d with time := d.time + 1 }

def answer (d : Drive) (task : Task) : Drive :=
  match d.answers d.time with
  | .busy => d.tick
  | .done => d.tick.finish task
  | .failed => { d.tick with phase := .idle, error := true }

/-- `inb(ATA_STATUS_PORT)`: the state in which the status is read. -/
def inbStatus (d : Drive) : Drive :=
  match d.phase with
  | .busy task => d.answer task
  | _ => d

def inwData (d : Drive) : ℕ × Drive :=
  match d.phase with
  | .sending lba left word =>
      (d.disk.le16 (512 * lba + 2 * word), { d with
        phase :=
          if word + 1 < 256 then .sending lba left (word + 1)
          else if left = 1 then .idle
          else .busy (.fetch (lba + 1) (left - 1)) })
  | _ => (0xFFFF, d)

def outwData (d : Drive) (value : ℕ) : Drive :=
  match d.phase with
  | .taking lba left word data =>
      { d with
        phase :=
          if word + 1 < 256 then
            .taking lba left (word + 1) (data.put16 (2 * word) value)
          else .busy (.store lba left (data.put16 (2 * word) value)) }
  | _ => d

/-- `outb(ATA_COMMAND_PORT, value)`.  A drive that is not idle takes no command. -/
def outbCommand (d : Drive) (value : ℕ) : Drive :=
  match d.phase with
  | .idle =>
      if value = 0x20 then
        { d with phase := .busy (.fetch d.lba d.count), error := false }
      else if value = 0x30 then
        { d with phase := .busy (.prepare d.lba d.count), error := false }
      else if value = 0xE7 then { d with phase := .busy .flush, error := false }
      else { d with error := true }
  | _ => d

end Drive

/-! ## The driver -/

/-- What is left of the time-out of a loop when it starts. -/
def patience : ℕ := 100001

/-- The first loop of `wait_for_disk`. -/
def waitBusy : ℕ → Drive → Bool × Drive
  | left, d =>
      let seen := d.inbStatus
      if seen.status &&& 0x80 ≠ 0 then
        match left with
        | 0 => (false, seen)
        | left + 1 => waitBusy left seen
      else (true, seen)

def waitForDisk (d : Drive) : Bool × Drive :=
  let waited := waitBusy patience d
  if waited.1 then
    let seen := waited.2.inbStatus
    (seen.status &&& 0x01 = 0, seen)
  else waited

/-- The registers of a transfer. -/
def select (lba count : ℕ) (d : Drive) : Drive :=
  { d with
    driveReg := (0xE0 ||| (lba >>> 24 &&& 0x0F)) % 256
    sectorCount := count % 256
    lbaLow := lba % 256
    lbaMid := lba >>> 8 % 256
    lbaHigh := lba >>> 16 % 256 }

/-- The loop of `read_sectors` that waits for a sector. -/
def waitRead : ℕ → Drive → Bool × Drive
  | left, d =>
      let seen := d.inbStatus
      if seen.status &&& 0x08 ≠ 0 then (true, seen)
      else
        match left with
        | 0 => (false, seen)
        | left + 1 =>
            let again := seen.inbStatus
            if again.status &&& 0x01 ≠ 0 then (false, again)
            else waitRead left again

/-- The loop over the words of a sector. -/
def readWords : ℕ → ℕ → Drive → ByteStore → Drive × ByteStore
  | 0, _, d, buffer => (d, buffer)
  | words + 1, index, d, buffer =>
      readWords words (index + 1) d.inwData.2
        (buffer.put16 (2 * index) d.inwData.1)

def readLoop : ℕ → ℕ → Drive → ByteStore → Drive × ByteStore
  | 0, _, d, buffer => (d, buffer)
  | sectors + 1, index, d, buffer =>
      let waited := waitRead patience d
      if waited.1 then
        let moved := readWords 256 index waited.2 buffer
        readLoop sectors (index + 256) moved.1 moved.2
      else (waited.2, buffer)

def readSectors (lba count : ℕ) (d : Drive) (buffer : ByteStore) :
    Drive × ByteStore :=
  let waited := waitForDisk d
  if waited.1 then
    readLoop count 0 ((select lba count waited.2).outbCommand 0x20) buffer
  else (waited.2, buffer)

/-- The loop of `write_sectors` that waits for a sector. -/
def waitWrite : ℕ → Drive → Bool × Drive
  | left, d =>
      let seen := d.inbStatus
      if seen.status &&& 0x08 ≠ 0 then (true, seen)
      else
        let again := seen.inbStatus
        if again.status &&& 0x01 ≠ 0 then (false, again)
        else
          match left with
          | 0 => (false, again)
          | left + 1 => waitWrite left again

/-- The loop over the words of a sector. -/
def writeWords (source : ByteStore) : ℕ → ℕ → Drive → Drive
  | 0, _, d => d
  | words + 1, index, d =>
      writeWords source words (index + 1)
        (d.outwData (source.le16 (2 * index)))

/-- The loop of `write_sectors`, and whether it has come to its end. -/
def writeLoop (source : ByteStore) : ℕ → ℕ → Drive → Bool × Drive
  | 0, _, d => (true, d)
  | sectors + 1, index, d =>
      let waited := waitWrite patience d
      if waited.1 then
        writeLoop source sectors (index + 256)
          (writeWords source 256 index waited.2)
      else waited

def writeSectors (lba count : ℕ) (d : Drive) (source : ByteStore) : Drive :=
  if count = 0 then d
  else
    let waited := waitForDisk d
    if waited.1 then
      let written := writeLoop source count 0
        ((select lba count waited.2).outbCommand 0x30)
      if written.1 then (waitForDisk (written.2.outbCommand 0xE7)).2
      else written.2
    else waited.2

end ClOs.Ata
