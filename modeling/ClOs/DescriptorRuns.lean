import ClOs.VfsDescriptors
import ClOs.VfsTransfers
import Mathlib.Data.Set.Card

/-!
# Runs of descriptor calls

Any sequence of calls on any number of descriptor tables.  The reference count
of every object stays one above the slots that refer to it, and no two slots
share an object other than the one for the standard output.
-/

namespace ClOs

open ByteStore RefCount

variable {Device : Type}

namespace Vfs

/-! ## Calls -/

/-- A call, with what `kmalloc` gives to it. -/
inductive Call
  | fdTableCreate (allocated : Option ℕ)
  | fdTableDestroy (table : Option ℕ)
  | switchTable (table : Option ℕ)
  | openPath (path : Option CString) (flags : ℕ) (allocated : Option ℕ)
  | close (fd : ℤ)
  | read (fd : ℤ) (buffer : Option ByteStore) (size : ℕ)
  | write (fd : ℤ) (buffer : Option ByteStore) (size : ℕ)
  | seek (fd : ℤ) (offset whence : ℕ)

/-- `vfs_fd_table` is `NULL` or a table that has not been freed. -/
def checkTable (s : Vfs Device) : Outcome Unit :=
  match s.vfsFdTable with
  | none => return ()
  | some address => do
      let _ ← s.fdTable address

/-- One call.  A `NULL` argument is `none`. -/
def perform (stdOutFile : ℕ) (s : Vfs Device) : Call → Outcome (ℤ × Vfs Device)
  | .fdTableCreate allocated =>
      let (table, s) := s.vfsFdTableCreate allocated
      return ((table.getD 0 : ℕ), s)
  | .fdTableDestroy none => return (0, s)
  | .fdTableDestroy (some table) => do return (0, ← s.vfsFdTableDestroy table)
  | .switchTable table => return (0, { s with vfsFdTable := table })
  | .openPath path flags allocated => s.vfsOpen stdOutFile path flags allocated
  | .close fd => do
      s.checkTable
      s.vfsClose fd
  | .read _ none _ => return (0, s)
  | .read fd (some buffer) size => do
      s.checkTable
      let (read, _, s) ← s.vfsRead fd buffer size
      return ((read : ℤ), s)
  | .write _ none _ => return (0, s)
  | .write fd (some buffer) size => do
      s.checkTable
      let (written, s) ← s.vfsWrite fd buffer size
      return ((written : ℤ), s)
  | .seek fd offset whence => do
      s.checkTable
      let (position, s) ← s.vfsSeek fd offset whence
      return ((position : ℤ), s)

/-- An address that `kmalloc` can give: in the heap, and in no other use. -/
structure Fresh (s : Vfs Device) (address : ℕ) : Prop where
  heap : Memory.kernelMalloc ≤ address ∧ address < 4294967296
  object : s.objects address = none
  table : s.tables address = none

/-- `kmalloc` gives unused addresses, and tables are switched and destroyed
while they exist. -/
def Call.Allowed (s : Vfs Device) : Call → Prop
  | .fdTableCreate allocated => ∀ address ∈ allocated, s.Fresh address
  | .fdTableDestroy table =>
      ∀ address ∈ table, (s.tables address).isSome = true
  | .switchTable table =>
      ∀ address ∈ table, (s.tables address).isSome = true
  | .openPath _ _ allocated => ∀ address ∈ allocated, s.Fresh address
  | _ => True

/-- The state before the first table is made: the only object is the one for
the standard output, and it is not in the heap. -/
structure AtStart (s : Vfs Device) (stdOutFile : ℕ) : Prop where
  tables : ∀ address, s.tables address = none
  vfsFdTable : s.vfsFdTable = none
  objects : ∀ address, (s.objects address).isSome = true →
    address = stdOutFile
  stdout : ∃ file, s.objects stdOutFile = some file ∧ file.refCount = 1
  static : stdOutFile < Memory.kernelMalloc

/-- The states that calls reach, with the calls made and the states they were
made in. -/
inductive Run (stdOutFile : ℕ) (start : Vfs Device) :
    List (Vfs Device × Call) → Vfs Device → Prop
  | start : Run stdOutFile start [] start
  | call {trace : List (Vfs Device × Call)} {s next : Vfs Device}
      {call : Call} {result : ℤ} (hrun : Run stdOutFile start trace s)
      (hallowed : call.Allowed s)
      (hcall : s.perform stdOutFile call = .ok (result, next)) :
      Run stdOutFile start (trace ++ [(s, call)]) next

/-! ## Slots and counts -/

def slot (s : Vfs Device) (p : ℕ × ℕ) : Option ℕ :=
  (s.tables p.1).bind (fun table => table.files p.2)

def descriptor (s : Vfs Device) (p : ℕ × ℕ) : Option VfsFile :=
  (s.slot p).bind s.objects

/-- The number of slots that are not `NULL`. -/
def usedSlots (files : ℕ → Option ℕ) : ℕ :=
  ((Finset.range fdMax).filter (fun i => (files i).isSome = true)).card

structure Counts (objects : ℕ → Option VfsFile) (slot : ℕ × ℕ → Option ℕ)
    (stdOutFile : ℕ) : Prop where
  counted : Counted (fun address => (objects address).map VfsFile.refCount)
    slot 1
  unique : ∀ address ≠ stdOutFile, (refs slot address).Subsingleton
  stdout : ∀ p address, slot p = some address →
    (p.2 = stdoutSlot ↔ address = stdOutFile)
  index : ∀ p address, slot p = some address →
    (p.2 = stdoutSlot ∨ 3 ≤ p.2) ∧ p.2 < fdMax
  region : ∀ p address, slot p = some address →
    Memory.kernelMalloc ≤ p.1 ∧ p.1 < 4294967296
  present : ∃ file, objects stdOutFile = some file
  static : stdOutFile < Memory.kernelMalloc

/-- The state of the descriptors between two calls. -/
structure Consistent (s : Vfs Device) (stdOutFile : ℕ) : Prop where
  counts : Counts s.objects s.slot stdOutFile
  region : ∀ address table, s.tables address = some table →
    Memory.kernelMalloc ≤ address ∧ address < 4294967296
  count : ∀ address table, s.tables address = some table →
    table.count = usedSlots table.files

section

variable {objects : ℕ → Option VfsFile} {slot : ℕ × ℕ → Option ℕ}
  {stdOutFile address : ℕ} {file : VfsFile} {p : ℕ × ℕ}

theorem refCount_update (objects : ℕ → Option VfsFile) (address : ℕ)
    (file : VfsFile) :
    (fun a => (Function.update objects address (some file) a).map
        VfsFile.refCount) =
      Function.update (fun a => (objects a).map VfsFile.refCount) address
        (some file.refCount) := by
  funext a
  by_cases ha : a = address
  · subst ha
    simp
  · simp [ha]

theorem of_update_none
    {q : ℕ × ℕ} (h : Function.update slot p none q = some address) :
    slot q = some address := by
  have hne : q ≠ p := by
    rintro rfl
    rw [Function.update_self] at h
    cases h
  rwa [Function.update_of_ne hne] at h

theorem Counts.object
    (h : Counts objects slot stdOutFile) (hslot : slot p = some address) :
    ∃ file, objects address = some file := by
  obtain ⟨n, hn⟩ := h.counted.live p address hslot
  obtain ⟨file, hfile, -⟩ := Option.map_eq_some_iff.1 hn
  exact ⟨file, hfile⟩

theorem Counts.refCount
    (h : Counts objects slot stdOutFile)
    (hobject : objects address = some file) :
    file.refCount = 1 + (refs slot address).ncard := by
  refine h.counted.counted address file.refCount ?_
  rw [hobject]
  rfl

/-- There is less than one standard output for each heap address. -/
theorem Counts.refCount_lt
    (h : Counts objects slot stdOutFile)
    (hobject : objects address = some file) :
    file.refCount < 4294967295 := by
  rw [h.refCount hobject]
  by_cases hstd : address = stdOutFile
  · have hsubset : refs slot address ⊆
        ((Finset.Ico Memory.kernelMalloc 4294967296).image
          (fun table => (table, stdoutSlot)) : Finset (ℕ × ℕ)) := by
      intro q hq
      rw [mem_refs] at hq
      have hindex := (h.stdout q address hq).2 hstd
      rw [Finset.mem_coe, Finset.mem_image]
      exact ⟨q.1, Finset.mem_Ico.2 (h.region q address hq),
        Prod.ext rfl hindex.symm⟩
    have hcard := Set.ncard_le_ncard hsubset
    rw [Set.ncard_coe_finset] at hcard
    have himage := Finset.card_image_le
      (s := Finset.Ico Memory.kernelMalloc 4294967296)
      (f := fun table => (table, stdoutSlot))
    rw [Nat.card_Ico, Memory.kernelMalloc] at himage
    have hle := hcard.trans himage
    omega
  · have hfinite : Finite (refs slot address) :=
      (h.counted.finite address).to_subtype
    have hle := Set.ncard_le_one_iff_subsingleton.2 (h.unique address hstd)
    omega

/-- The fields that no count depends on may change. -/
theorem Counts.keep
    (h : Counts objects slot stdOutFile) {new : VfsFile}
    (hobject : objects address = some file)
    (hcount : new.refCount = file.refCount) :
    Counts (Function.update objects address (some new)) slot stdOutFile where
  counted := by
    rw [refCount_update, hcount, Function.update_eq_self_iff.2 (by rw [hobject]; rfl)]
    exact h.counted
  unique := h.unique
  stdout := h.stdout
  index := h.index
  region := h.region
  present := by
    by_cases ha : stdOutFile = address
    · exact ⟨new, by rw [ha, Function.update_self]⟩
    · rw [Function.update_of_ne ha]
      exact h.present
  static := h.static

theorem Counts.add
    (h : Counts objects slot stdOutFile) (hfresh : objects address = none)
    (hcount : file.refCount = 1) :
    Counts (Function.update objects address (some file)) slot stdOutFile where
  counted := by
    rw [refCount_update, hcount]
    exact h.counted.add (by rw [hfresh]; rfl)
  unique := h.unique
  stdout := h.stdout
  index := h.index
  region := h.region
  present := by
    obtain ⟨out, hout⟩ := h.present
    have hne : stdOutFile ≠ address := by
      rintro rfl
      rw [hfresh] at hout
      cases hout
    exact ⟨out, by rw [Function.update_of_ne hne, hout]⟩
  static := h.static

/-- What may go into a slot. -/
structure Fits (slot : ℕ × ℕ → Option ℕ) (stdOutFile : ℕ) (p : ℕ × ℕ)
    (address : ℕ) : Prop where
  free : slot p = none
  stdout : p.2 = stdoutSlot ↔ address = stdOutFile
  index : (p.2 = stdoutSlot ∨ 3 ≤ p.2) ∧ p.2 < fdMax
  region : Memory.kernelMalloc ≤ p.1 ∧ p.1 < 4294967296
  unreferenced : address ≠ stdOutFile → ∀ q, slot q ≠ some address

/-- A reference more, in a slot that was `NULL`. -/
theorem Counts.install
    (h : Counts objects slot stdOutFile) (hfits : Fits slot stdOutFile p address)
    (hobject : objects address = some file) :
    Counts (Function.update objects address
        (some { file with refCount := file.refCount + 1 }))
      (Function.update slot p (some address)) stdOutFile where
  counted := by
    rw [refCount_update]
    exact h.counted.install hfits.free (by rw [hobject]; rfl)
  unique a ha := by
    by_cases haddress : a = address
    · subst haddress
      rw [(refs_install_self hfits.free _).1,
        refs_eq_empty (hfits.unreferenced ha)]
      simp
    · rw [refs_install_other hfits.free haddress]
      exact h.unique a ha
  stdout q a hq := by
    by_cases hqp : q = p
    · subst hqp
      rw [Function.update_self, Option.some.injEq] at hq
      rw [← hq]
      exact hfits.stdout
    · rw [Function.update_of_ne hqp] at hq
      exact h.stdout q a hq
  index q a hq := by
    by_cases hqp : q = p
    · subst hqp
      exact hfits.index
    · rw [Function.update_of_ne hqp] at hq
      exact h.index q a hq
  region q a hq := by
    by_cases hqp : q = p
    · subst hqp
      exact hfits.region
    · rw [Function.update_of_ne hqp] at hq
      exact h.region q a hq
  present := by
    by_cases ha : stdOutFile = address
    · exact ⟨_, by rw [ha, Function.update_self]⟩
    · rw [Function.update_of_ne ha]
      exact h.present
  static := h.static

/-- A reference less. -/
theorem Counts.remove
    (h : Counts objects slot stdOutFile) (hslot : slot p = some address)
    (hobject : objects address = some file) :
    Counts (Function.update objects address
        (some { file with refCount := file.refCount - 1 }))
      (Function.update slot p none) stdOutFile where
  counted := by
    rw [refCount_update]
    exact h.counted.remove hslot (by rw [hobject]; rfl)
  unique a ha := by
    by_cases haddress : a = address
    · subst haddress
      rw [refs_remove_self]
      exact (h.unique a ha).anti Set.sdiff_subset
    · rw [refs_remove_other hslot haddress]
      exact h.unique a ha
  stdout q a hq := h.stdout q a (of_update_none hq)
  index q a hq := h.index q a (of_update_none hq)
  region q a hq := h.region q a (of_update_none hq)
  present := by
    by_cases ha : stdOutFile = address
    · exact ⟨_, by rw [ha, Function.update_self]⟩
    · rw [Function.update_of_ne ha]
      exact h.present
  static := h.static

end

/-! ## References -/

section

variable {s next : Vfs Device} {stdOutFile current address i : ℕ}
  {table : FdTable} {file : VfsFile}

@[simp] theorem setObject_tables (s : Vfs Device) (address : ℕ)
    (file : VfsFile) : (s.setObject address file).tables = s.tables := rfl

@[simp] theorem setObject_slot (s : Vfs Device) (address : ℕ)
    (file : VfsFile) : (s.setObject address file).slot = s.slot := rfl

theorem tables_setTable
    {a : ℕ} {t new : FdTable}
    (h : (s.setTable current new).tables a = some t) :
    (a = current ∧ t = new) ∨ (a ≠ current ∧ s.tables a = some t) := by
  by_cases ha : a = current
  · subst ha
    simp only [setTable, Function.update_self, Option.some.injEq] at h
    exact .inl ⟨rfl, h.symm⟩
  · simp only [setTable, Function.update_of_ne ha] at h
    exact .inr ⟨ha, h⟩

theorem slot_of_table
    (htable : s.tables current = some table) (i : ℕ) :
    s.slot (current, i) = table.files i := by
  simp [slot, htable]

theorem slot_setTable
    (htable : s.tables current = some table) (i : ℕ) (v : Option ℕ)
    (count : ℕ) :
    (s.setTable current ⟨Function.update table.files i v, count⟩).slot =
      Function.update s.slot (current, i) v := by
  funext p
  obtain ⟨a, k⟩ := p
  by_cases ha : a = current
  · subst ha
    by_cases hk : k = i
    · subst hk
      simp [slot, setTable]
    · have hne : (a, k) ≠ (a, i) := by simpa using hk
      rw [Function.update_of_ne hne, slot_of_table htable]
      simp [slot, setTable, hk]
  · have hne : (a, k) ≠ (current, i) := by
      intro heq
      exact ha (Prod.ext_iff.1 heq).1
    rw [Function.update_of_ne hne]
    simp [slot, setTable, ha]

theorem usedSlots_install
    {files : ℕ → Option ℕ} (hi : i < fdMax) (hfree : files i = none) :
    usedSlots (Function.update files i (some address)) =
      usedSlots files + 1 := by
  have hinsert : (Finset.range fdMax).filter (fun k =>
        (Function.update files i (some address) k).isSome = true) =
      insert i ((Finset.range fdMax).filter
        (fun k => (files k).isSome = true)) := by
    ext k
    by_cases hk : k = i
    · subst hk
      simp [hi]
    · simp [hk]
  unfold usedSlots
  rw [hinsert, Finset.card_insert_of_notMem (by simp [hfree])]

theorem usedSlots_remove
    {files : ℕ → Option ℕ} (hi : i < fdMax)
    (hslot : files i = some address) :
    usedSlots files = usedSlots (Function.update files i none) + 1 := by
  have hback : Function.update (Function.update files i none) i
      (some address) = files := by
    rw [Function.update_idem, ← hslot, Function.update_eq_self]
  rw [← usedSlots_install hi (Function.update_self i none files), hback]

theorem usedSlots_le (files : ℕ → Option ℕ) : usedSlots files ≤ 256 := by
  have hle := Finset.card_filter_le (Finset.range fdMax)
    (fun k => (files k).isSome = true)
  rwa [Finset.card_range] at hle

theorem object_eq_ok :
    s.object address = .ok file ↔ s.objects address = some file := by
  unfold object
  cases s.objects address <;> simp

theorem fdTable_eq_ok :
    s.fdTable current = .ok table ↔ s.tables current = some table := by
  unfold fdTable
  cases s.tables current <;> simp

theorem Consistent.refCount_lt
    (h : Consistent s stdOutFile) (hobject : s.objects address = some file) :
    file.refCount < 4294967295 :=
  h.counts.refCount_lt hobject

theorem retain_eq_ok
    (hobject : s.objects address = some file)
    (hlt : file.refCount < 4294967295) :
    s.retain address =
      .ok (s.setObject address
        { file with refCount := file.refCount + 1 }) := by
  have hsum : u32 (file.refCount + 1) = file.refCount + 1 :=
    u32_of_lt (by omega)
  unfold retain
  simp only [object_eq_ok.2 hobject, bind, Except.bind, hsum]
  rfl

/-- The last reference to an object is never given back. -/
theorem release_eq_ok
    (hobject : s.objects address = some file) (hlast : 1 < file.refCount)
    (hlt : file.refCount < 4294967295) :
    s.release address =
      .ok (s.setObject address
        { file with refCount := file.refCount - 1 }) := by
  have hdiff : sub32 file.refCount 1 = file.refCount - 1 :=
    sub32_of_le (by omega) (by omega)
  have hne : file.refCount - 1 ≠ 0 := by omega
  unfold release
  simp only [object_eq_ok.2 hobject, bind, Except.bind, hdiff, if_neg hne]
  rfl

theorem Consistent.install
    (h : Consistent s stdOutFile) (htable : s.tables current = some table)
    (hfits : Fits s.slot stdOutFile (current, i) address)
    (hobject : s.objects address = some file) :
    (s.setTable current ⟨Function.update table.files i (some address),
        u32 (table.count + 1)⟩).retain address =
      .ok ((s.setTable current ⟨Function.update table.files i (some address),
        table.count + 1⟩).setObject address
          { file with refCount := file.refCount + 1 }) ∧
    Consistent ((s.setTable current
      ⟨Function.update table.files i (some address),
        table.count + 1⟩).setObject address
          { file with refCount := file.refCount + 1 }) stdOutFile := by
  have hfree : table.files i = none := by
    rw [← slot_of_table htable]
    exact hfits.free
  have hcount : table.count < 4294967295 := by
    have hle := usedSlots_le table.files
    rw [h.count current table htable]
    omega
  constructor
  · rw [u32_of_lt (by omega : table.count + 1 < 4294967296)]
    exact retain_eq_ok hobject (h.refCount_lt hobject)
  · exact {
      counts := by
        rw [setObject_slot, slot_setTable htable]
        exact h.counts.install hfits hobject
      region := by
        intro a t ht
        rcases tables_setTable ht with ⟨rfl, rfl⟩ | ⟨-, hold⟩
        · exact h.region a table htable
        · exact h.region a t hold
      count := by
        intro a t ht
        rcases tables_setTable ht with ⟨rfl, rfl⟩ | ⟨-, hold⟩
        · rw [usedSlots_install hfits.index.2 hfree, h.count a table htable]
        · exact h.count a t hold }

/-- A slot is emptied. -/
theorem Consistent.remove
    (h : Consistent s stdOutFile) (htable : s.tables current = some table)
    (hslot : table.files i = some address) :
    ∃ file, s.objects address = some file ∧
      s.vfsFdFree current table i address =
        .ok ((s.setObject address
          { file with refCount := file.refCount - 1 }).setTable current
            ⟨Function.update table.files i none, table.count - 1⟩) ∧
      Consistent ((s.setObject address
        { file with refCount := file.refCount - 1 }).setTable current
          ⟨Function.update table.files i none, table.count - 1⟩)
        stdOutFile := by
  have hin : s.slot (current, i) = some address := by
    rw [slot_of_table htable, hslot]
  obtain ⟨file, hobject⟩ := h.counts.object hin
  have hindex := (h.counts.index _ _ hin).2
  have hused := usedSlots_remove hindex hslot
  have hcount := h.count current table htable
  have hle := usedSlots_le table.files
  have hlast := h.counts.counted.spare_lt hin
    (n := file.refCount) (by rw [hobject]; rfl)
  refine ⟨file, hobject, ?_, ?_⟩
  · have hdiff : sub32 table.count 1 = table.count - 1 :=
      sub32_of_le (by omega) (by omega)
    unfold vfsFdFree
    simp only [release_eq_ok hobject hlast (h.refCount_lt hobject), bind,
      Except.bind, hdiff]
    rfl
  · exact {
      counts := by
        have hremoved := h.counts.remove hin hobject
        rw [← slot_setTable htable i none (table.count - 1)] at hremoved
        exact hremoved
      region := by
        intro a t ht
        rcases tables_setTable ht with ⟨rfl, rfl⟩ | ⟨-, hold⟩
        · exact h.region a table htable
        · exact h.region a t hold
      count := by
        intro a t ht
        rcases tables_setTable ht with ⟨rfl, rfl⟩ | ⟨-, hold⟩
        · rw [hcount, hused]
          rfl
        · exact h.count a t hold }

/-! ## Opening -/

/-- A descriptor that a call leaves alone. -/
def Untouched (s next : Vfs Device) (q : ℕ × ℕ) : Prop :=
  next.slot q = s.slot q ∧ next.descriptor q = s.descriptor q

theorem untouched_of
    {q : ℕ × ℕ} (hslot : next.slot q = s.slot q)
    (hobjects : ∀ a, s.slot q = some a → next.objects a = s.objects a) :
    Untouched s next q := by
  refine ⟨hslot, ?_⟩
  unfold descriptor
  rw [hslot]
  cases hq : s.slot q with
  | none => rfl
  | some a => exact hobjects a hq

def SameObjects (s next : Vfs Device) : Prop :=
  ∀ a, (next.objects a).isSome = (s.objects a).isSome

theorem sameObjects_setObject
    (hobject : s.objects address = some file) (new : VfsFile)
    (hnext : next.objects = Function.update s.objects address (some new)) :
    SameObjects s next := by
  intro a
  rw [hnext]
  by_cases ha : a = address
  · subst ha
    simp [hobject]
  · simp [ha]

/-- After the first lines of `vfs_fd_alloc`. -/
structure StdoutInstalled (s next : Vfs Device) (stdOutFile current : ℕ)
    (table : FdTable) : Prop where
  consistent : Consistent next stdOutFile
  table : ∃ installed, next.tables current = some installed ∧
    ∀ i ≠ stdoutSlot, installed.files i = table.files i
  slots : ∀ q : ℕ × ℕ, q.2 ≠ stdoutSlot → next.slot q = s.slot q
  others : ∀ a ≠ stdOutFile, next.objects a = s.objects a
  objects : SameObjects s next

theorem Consistent.installStdout
    (h : Consistent s stdOutFile) (htable : s.tables current = some table) :
    ∃ next, s.installStdout stdOutFile current = .ok next ∧
      StdoutInstalled s next stdOutFile current table := by
  by_cases hfree : table.files stdoutSlot = none
  · obtain ⟨out, hout⟩ := h.counts.present
    have hfits : Fits s.slot stdOutFile (current, stdoutSlot) stdOutFile := {
      free := by rw [slot_of_table htable, hfree]
      stdout := by simp
      index := ⟨.inl rfl, show stdoutSlot < fdMax by decide⟩
      region := h.region current table htable
      unreferenced := fun hne => absurd rfl hne }
    obtain ⟨hok, hnext⟩ := h.install htable hfits hout
    refine ⟨_, ?_, hnext, ?_, ?_, ?_, ?_⟩
    · unfold Vfs.installStdout
      simp only [fdTable_eq_ok.2 htable, bind, Except.bind, if_pos hfree]
      exact hok
    · refine ⟨_, Function.update_self _ _ _, fun i hi => ?_⟩
      exact Function.update_of_ne hi _ _
    · intro q hq
      have hne : q ≠ (current, stdoutSlot) := by
        rintro rfl
        exact hq rfl
      rw [setObject_slot, slot_setTable htable, Function.update_of_ne hne]
    · intro a ha
      exact Function.update_of_ne ha _ _
    · exact sameObjects_setObject hout _ rfl
  · refine ⟨s, ?_, h, ⟨table, htable, fun _ _ => rfl⟩, fun _ _ => rfl,
      fun _ _ => rfl, fun _ => rfl⟩
    unfold Vfs.installStdout
    simp only [fdTable_eq_ok.2 htable, bind, Except.bind, if_neg hfree]
    rfl

theorem freeSlot_eq_some
    (h : freeSlot table = some i) :
    3 ≤ i ∧ i < fdMax ∧ table.files i = none ∧
      ∀ k, 3 ≤ k → k < i → table.files k ≠ none := by
  obtain ⟨hfree, hmem, hfirst⟩ := List.find?_range'_eq_some.1 h
  obtain ⟨hlow, hhigh⟩ := List.mem_range'_1.1 hmem
  refine ⟨hlow, hhigh, by simpa using hfree, fun k hk hki hnone => ?_⟩
  have hused := hfirst k hk hki
  simp [hnone] at hused

/-- The descriptor that `vfs_fd_alloc` gives out. -/
structure Allocated (next : Vfs Device) (current : ℕ) (table : FdTable)
    (result : ℤ) (i address : ℕ) : Prop where
  result : result = (i : ℤ)
  low : 3 ≤ i
  high : i < fdMax
  free : table.files i = none
  lowest : ∀ k, 3 ≤ k → k < i → table.files k ≠ none
  slot : next.slot (current, i) = some address
  object : ∃ file, next.objects address = some file
  alone : ∀ q, next.slot q = some address → q = (current, i)

/-- The slot that the loop of `vfs_fd_alloc` finds is filled. -/
theorem Consistent.installFile
    (h : Consistent s stdOutFile) (htable : s.tables current = some table)
    (hslot : freeSlot table = some i)
    (hobject : s.objects address = some file) (haddress : address ≠ stdOutFile)
    (hunreferenced : ∀ q, s.slot q ≠ some address) :
    ∃ next, (s.setTable current ⟨Function.update table.files i (some address),
        u32 (table.count + 1)⟩).retain address = .ok next ∧
      Consistent next stdOutFile ∧ SameObjects s next ∧
      Allocated next current table i i address ∧
      ∀ q ≠ (current, i), Untouched s next q := by
  obtain ⟨hlow, hhigh, hfree, hlowest⟩ := freeSlot_eq_some hslot
  have hfits : Fits s.slot stdOutFile (current, i) address := {
    free := by rw [slot_of_table htable, hfree]
    stdout := by
      refine ⟨fun hi => ?_, fun heq => absurd heq haddress⟩
      simp only [stdoutSlot] at hi
      omega
    index := ⟨.inr hlow, hhigh⟩
    region := h.region current table htable
    unreferenced := fun _ => hunreferenced }
  obtain ⟨hretain, hnext⟩ := h.install htable hfits hobject
  have hslots := slot_setTable htable i (some address) (table.count + 1)
  have hin := (congrFun hslots (current, i)).trans (Function.update_self _ _ _)
  refine ⟨_, hretain, hnext, sameObjects_setObject hobject _ rfl, {
    result := rfl
    low := hlow
    high := hhigh
    free := hfree
    lowest := hlowest
    slot := hin
    object := hnext.counts.object hin
    alone := fun q hq => hnext.counts.unique address haddress hq hin }, ?_⟩
  intro q hq
  have hslotq := (congrFun hslots q).trans (Function.update_of_ne hq _ _)
  refine untouched_of hslotq fun a ha => Function.update_of_ne ?_ _ _
  rintro rfl
  exact hunreferenced q ha

theorem Consistent.vfsFdAlloc
    (h : Consistent s stdOutFile) (htable : s.tables current = some table)
    (hobject : s.objects address = some file) (haddress : address ≠ stdOutFile)
    (hunreferenced : ∀ q, s.slot q ≠ some address) :
    ∃ result next, s.vfsFdAlloc stdOutFile current address =
        .ok (result, next) ∧
      Consistent next stdOutFile ∧ SameObjects s next ∧
      (result = -1 ∨ ∃ i, Allocated next current table result i address) ∧
      ∀ q : ℕ × ℕ, 3 ≤ q.2 → ¬(q.1 = current ∧ (q.2 : ℤ) = result) →
        Untouched s next q := by
  obtain ⟨middle, hok, hinstalled⟩ := h.installStdout htable
  obtain ⟨installed, hmiddle, hfiles⟩ := hinstalled.table
  have hkept : ∀ q : ℕ × ℕ, 3 ≤ q.2 → Untouched s middle q := by
    intro q hq
    refine untouched_of (hinstalled.slots q ?_) fun a ha =>
      hinstalled.others a ?_
    · unfold stdoutSlot
      omega
    · rintro rfl
      have hindex := (h.counts.stdout q _ ha).2 rfl
      rw [hindex, stdoutSlot] at hq
      omega
  cases hslot : freeSlot installed with
  | none =>
      refine ⟨-1, middle, ?_, hinstalled.consistent, hinstalled.objects,
        .inl rfl, fun q hq _ => hkept q hq⟩
      unfold Vfs.vfsFdAlloc
      simp only [hok, fdTable_eq_ok.2 hmiddle, bind, Except.bind, hslot]
      rfl
  | some i =>
      have hobject' : middle.objects address = some file := by
        rw [hinstalled.others address haddress, hobject]
      have hunreferenced' : ∀ q, middle.slot q ≠ some address := by
        intro q hq
        by_cases hindex : q.2 = stdoutSlot
        · exact haddress
            ((hinstalled.consistent.counts.stdout q address hq).1 hindex)
        · rw [hinstalled.slots q hindex] at hq
          exact hunreferenced q hq
      obtain ⟨next, hretain, hnext, hobjects, hallocated, hothers⟩ :=
        hinstalled.consistent.installFile hmiddle hslot hobject' haddress
          hunreferenced'
      have hsame : ∀ k, 3 ≤ k → installed.files k = table.files k := by
        intro k hk
        refine hfiles k ?_
        unfold stdoutSlot
        omega
      refine ⟨i, next, ?_, hnext, fun a => (hobjects a).trans
        (hinstalled.objects a), .inr ⟨i, ?_⟩, ?_⟩
      · unfold Vfs.vfsFdAlloc
        simp only [hok, fdTable_eq_ok.2 hmiddle, bind, Except.bind, hslot,
          hretain]
        rfl
      · exact { hallocated with
          free := by rw [← hsame i hallocated.low, hallocated.free]
          lowest := by
            intro k hk hki
            rw [← hsame k hk]
            exact hallocated.lowest k hk hki }
      · intro q hq hne
        have hqi : q ≠ (current, i) := by
          rintro rfl
          exact hne ⟨rfl, rfl⟩
        have hmoved := hkept q hq
        have hlast := hothers q hqi
        exact ⟨hlast.1.trans hmoved.1, hlast.2.trans hmoved.2⟩

/-- `vfs_file_open` gets as far as `kmalloc`. -/
def Finds (s : Vfs Device) (path : CString) (flags : ℕ) : Prop :=
  ∃ ops device, s.vfsCurrentFs = some ops ∧
    findOrCreate ops s.device path flags = .ok (true, device)

/-- A call that allocates a file object. -/
def Call.Allocates (s : Vfs Device) : Call → Prop
  | .openPath (some path) flags (some _) =>
      s.vfsFdTable ≠ none ∧ s.Finds path flags
  | _ => False

theorem newFile_refCount
    {ops : VfsOps Device} {device device' : Device} {path : CString}
    {flags : ℕ} (h : newFile ops device path flags = .ok (file, device')) :
    file.refCount = 1 := by
  unfold newFile at h
  by_cases hlong : 256 ≤ path.length
  · rw [if_pos hlong] at h
    cases h
  · rw [if_neg hlong, Outcome.bind_eq_ok] at h
    obtain ⟨position, -, h⟩ := h
    rw [Outcome.bind_eq_ok] at h
    obtain ⟨size, -, h⟩ := h
    by_cases htrunc : flags &&& oTrunc ≠ 0
    · rw [if_pos htrunc, Outcome.bind_eq_ok] at h
      obtain ⟨written, -, h⟩ := h
      simp only [pure, Except.pure, Except.ok.injEq, Prod.mk.injEq] at h
      rw [← h.1]
    · rw [if_neg htrunc] at h
      simp only [pure, Except.pure, Except.ok.injEq, Prod.mk.injEq] at h
      rw [← h.1]

theorem vfsFileOpen_ok
    {path : CString} {flags : ℕ} {allocated result : Option ℕ}
    (h : s.vfsFileOpen path flags allocated = .ok (result, next)) :
    next.tables = s.tables ∧ next.vfsFdTable = s.vfsFdTable ∧
      ((result = none ∧ next.objects = s.objects ∧
          (allocated ≠ none → ¬ s.Finds path flags)) ∨
        ∃ address file, result = some address ∧ allocated = some address ∧
          s.Finds path flags ∧ file.refCount = 1 ∧
          next.objects = Function.update s.objects address (some file)) := by
  unfold vfsFileOpen at h
  cases hops : s.vfsCurrentFs with
  | none =>
      simp only [hops, pure, Except.pure, Except.ok.injEq, Prod.mk.injEq] at h
      obtain ⟨rfl, rfl⟩ := h
      refine ⟨rfl, rfl, .inl ⟨rfl, rfl, ?_⟩⟩
      rintro - ⟨ops, device, hsome, -⟩
      rw [hops] at hsome
      cases hsome
  | some ops =>
      simp only [hops] at h
      rw [Outcome.bind_eq_ok] at h
      obtain ⟨⟨found, device⟩, hfound, h⟩ := h
      simp only at h
      split_ifs at h with hcase
      · simp only [pure, Except.pure, Except.ok.injEq, Prod.mk.injEq] at h
        obtain ⟨rfl, rfl⟩ := h
        refine ⟨rfl, rfl, .inl ⟨rfl, rfl, ?_⟩⟩
        rintro - ⟨ops', device', hsome, hfinds⟩
        rw [hops, Option.some.injEq] at hsome
        subst hsome
        rw [hfound, hcase, Except.ok.injEq, Prod.mk.injEq] at hfinds
        exact Bool.false_ne_true hfinds.1
      · rw [Bool.not_eq_false] at hcase
        subst hcase
        cases allocated with
        | none =>
            simp only [pure, Except.pure, Except.ok.injEq,
              Prod.mk.injEq] at h
            obtain ⟨rfl, rfl⟩ := h
            exact ⟨rfl, rfl, .inl ⟨rfl, rfl, fun hne => absurd rfl hne⟩⟩
        | some address =>
            simp only at h
            rw [Outcome.bind_eq_ok] at h
            obtain ⟨⟨file, device'⟩, hfile, h⟩ := h
            simp only [pure, Except.pure, Except.ok.injEq,
              Prod.mk.injEq] at h
            obtain ⟨rfl, rfl⟩ := h
            exact ⟨rfl, rfl, .inr ⟨address, file, rfl, rfl,
              ⟨ops, device, hops, hfound⟩, newFile_refCount hfile, rfl⟩⟩

theorem fresh_unreferenced
    (h : Consistent s stdOutFile) (hfresh : s.Fresh address) (q : ℕ × ℕ) :
    s.slot q ≠ some address := by
  intro hq
  obtain ⟨file, hfile⟩ := h.counts.object hq
  rw [hfresh.object] at hfile
  cases hfile

theorem Fresh.ne_stdout
    (hfresh : s.Fresh address) (h : Consistent s stdOutFile) :
    address ≠ stdOutFile := by
  rintro rfl
  have hheap := hfresh.heap.1
  have hstatic := h.counts.static
  omega

/-- An object that `kmalloc` has just given is in no slot. -/
theorem Consistent.add
    (h : Consistent s stdOutFile) (hfresh : s.Fresh address)
    (hcount : file.refCount = 1) (htables : next.tables = s.tables)
    (hobjects : next.objects =
      Function.update s.objects address (some file)) :
    Consistent next stdOutFile where
  counts := by
    have hslot : next.slot = s.slot := by
      funext q
      rw [slot, htables]
      rfl
    rw [hslot, hobjects]
    exact h.counts.add hfresh.object hcount
  region := by
    rw [htables]
    exact h.region
  count := by
    rw [htables]
    exact h.count

theorem Consistent.same
    (h : Consistent s stdOutFile) (htables : next.tables = s.tables)
    (hobjects : next.objects = s.objects) : Consistent next stdOutFile where
  counts := by
    have hslot : next.slot = s.slot := by
      funext q
      rw [slot, htables]
      rfl
    rw [hslot, hobjects]
    exact h.counts
  region := by
    rw [htables]
    exact h.region
  count := by
    rw [htables]
    exact h.count

theorem tables_of_vfsFdAlloc
    {result : ℤ}
    (h : s.vfsFdAlloc stdOutFile current address = .ok (result, next)) :
    ∃ table, s.tables current = some table := by
  unfold Vfs.vfsFdAlloc at h
  rw [Outcome.bind_eq_ok] at h
  obtain ⟨middle, h, -⟩ := h
  unfold Vfs.installStdout at h
  rw [Outcome.bind_eq_ok] at h
  obtain ⟨table, htable, -⟩ := h
  exact ⟨table, fdTable_eq_ok.1 htable⟩

/-- What a call of `vfs_open` does. -/
structure Opens (s next : Vfs Device) (stdOutFile : ℕ) (call : Call)
    (result : ℤ) : Prop where
  consistent : Consistent next stdOutFile
  opened : result = -1 ∨ ∃ current table i address,
    s.vfsFdTable = some current ∧ s.tables current = some table ∧
      Allocated next current table result i address
  others : ∀ q : ℕ × ℕ, 3 ≤ q.2 →
    ¬(s.vfsFdTable = some q.1 ∧ (q.2 : ℤ) = result) → Untouched s next q
  objects : (¬ call.Allocates s ∧ SameObjects s next) ∨
    (call.Allocates s ∧ (∃ address ≠ stdOutFile,
        (next.objects address).isSome = true) ∧
      ∀ a, (s.objects a).isSome = true → (next.objects a).isSome = true)

/-- A call of `vfs_open` that returns early. -/
theorem Consistent.notOpened
    (h : Consistent s stdOutFile) {call : Call}
    (htables : next.tables = s.tables) (hobjects : next.objects = s.objects)
    (hcall : ¬ call.Allocates s) : Opens s next stdOutFile call (-1) where
  consistent := h.same htables hobjects
  opened := .inl rfl
  others q _ _ := by
    refine untouched_of ?_ fun a _ => by rw [hobjects]
    rw [slot, htables]
    rfl
  objects := .inl ⟨hcall, fun a => by rw [hobjects]⟩

theorem Consistent.vfsOpen
    (h : Consistent s stdOutFile) {path : Option CString} {flags : ℕ}
    {allocated : Option ℕ} {result : ℤ}
    (hfresh : ∀ address ∈ allocated, s.Fresh address)
    (hopen : s.vfsOpen stdOutFile path flags allocated = .ok (result, next)) :
    Opens s next stdOutFile (.openPath path flags allocated) result := by
  unfold Vfs.vfsOpen at hopen
  cases path with
  | none =>
      simp only [pure, Except.pure, Except.ok.injEq, Prod.mk.injEq] at hopen
      obtain ⟨rfl, rfl⟩ := hopen
      exact h.notOpened rfl rfl fun hcall => hcall
  | some path =>
    cases hcurrent : s.vfsFdTable with
    | none =>
        simp only [hcurrent, pure, Except.pure, Except.ok.injEq,
          Prod.mk.injEq] at hopen
        obtain ⟨rfl, rfl⟩ := hopen
        refine h.notOpened rfl rfl fun hcall => ?_
        cases allocated with
        | none => exact hcall
        | some address => exact hcall.1 hcurrent
    | some current =>
        simp only [hcurrent] at hopen
        rw [Outcome.bind_eq_ok] at hopen
        obtain ⟨⟨file, middle⟩, hfile, hopen⟩ := hopen
        obtain ⟨htables, htable, hcases⟩ := vfsFileOpen_ok hfile
        rcases hcases with ⟨rfl, hobjects, hnot⟩ |
          ⟨address, new, rfl, rfl, hfinds, hcount, hobjects⟩
        · simp only [pure, Except.pure, Except.ok.injEq,
            Prod.mk.injEq] at hopen
          obtain ⟨rfl, rfl⟩ := hopen
          refine h.notOpened htables hobjects fun hcall => ?_
          cases allocated with
          | none => exact hcall
          | some address => exact hnot (Option.some_ne_none _) hcall.2
        · simp only at hopen
          have hnew := hfresh address rfl
          have hmiddle := h.add hnew hcount htables hobjects
          have hobject : middle.objects address = some new := by
            rw [hobjects, Function.update_self]
          have hslot : middle.slot = s.slot := by
            funext q
            rw [slot, htables]
            rfl
          have hunreferenced : ∀ q, middle.slot q ≠ some address := by
            rw [hslot]
            exact fresh_unreferenced h hnew
          obtain ⟨table, hcurrentTable⟩ := tables_of_vfsFdAlloc hopen
          obtain ⟨result', next', hok, hnext, hsame, hallocated, hothers⟩ :=
            hmiddle.vfsFdAlloc hcurrentTable hobject
              (hnew.ne_stdout h) hunreferenced
          rw [hok, Except.ok.injEq, Prod.mk.injEq] at hopen
          obtain ⟨rfl, rfl⟩ := hopen
          exact {
            consistent := hnext
            opened := hallocated.imp_right fun ⟨i, hi⟩ =>
              ⟨current, table, i, address, hcurrent, htables ▸ hcurrentTable,
                hi⟩
            others := by
              intro q hq hne
              have hmoved : Untouched s middle q := by
                refine untouched_of (congrFun hslot q) fun a ha => ?_
                have hane : a ≠ address := by
                  rintro rfl
                  exact fresh_unreferenced h hnew q ha
                rw [hobjects, Function.update_of_ne hane]
              have hlast := hothers q hq fun hboth =>
                hne ⟨hcurrent.trans (congrArg some hboth.1.symm), hboth.2⟩
              exact ⟨hlast.1.trans hmoved.1, hlast.2.trans hmoved.2⟩
            objects := by
              refine .inr ⟨⟨by simp [hcurrent], hfinds⟩,
                ⟨address, hnew.ne_stdout h, ?_⟩, fun a ha => ?_⟩
              · rw [hsame, hobject]
                rfl
              · rw [hsame, hobjects]
                by_cases haa : a = address
                · simp [haa]
                · rwa [Function.update_of_ne haa] }

/-! ## The other calls -/

def Edits (s next : Vfs Device) (fd : ℤ) : Prop :=
  next.tables = s.tables ∧ (next.objects = s.objects ∨
    ∃ address file new, s.vfsFdGet fd = some address ∧
      s.objects address = some file ∧ new.refCount = file.refCount ∧
      next.objects = Function.update s.objects address (some new))

theorem Edits.refl (s : Vfs Device) (fd : ℤ) : Edits s s fd :=
  ⟨rfl, .inl rfl⟩

theorem Edits.setObject
    {fd : ℤ} {new : VfsFile} (hget : s.vfsFdGet fd = some address)
    (hobject : s.object address = .ok file)
    (hcount : new.refCount = file.refCount) (device : Device) :
    Edits s ({ s with device := device }.setObject address new) fd :=
  ⟨rfl, .inr ⟨address, file, new, hget, object_eq_ok.1 hobject, hcount, rfl⟩⟩

theorem vfsRead_edits
    {fd : ℤ} {buffer filled : ByteStore} {size read : ℕ}
    (h : s.vfsRead fd buffer size = .ok (read, filled, next)) :
    Edits s next fd := by
  unfold vfsRead at h
  cases hslot : s.vfsFdGet fd with
  | none =>
      simp only [hslot, pure, Except.pure, Except.ok.injEq,
        Prod.mk.injEq] at h
      rw [← h.2.2]
      exact .refl s fd
  | some address =>
      simp only [hslot] at h
      unfold vfsFileRead at h
      rw [Outcome.bind_eq_ok] at h
      obtain ⟨file, hfile, h⟩ := h
      split_ifs at h with hend
      · simp only [pure, Except.pure, Except.ok.injEq, Prod.mk.injEq] at h
        rw [← h.2.2]
        exact .refl s fd
      · cases hops : s.vfsCurrentFs with
        | none =>
            simp only [hops, pure, Except.pure, Except.ok.injEq,
              Prod.mk.injEq] at h
            rw [← h.2.2]
            exact .refl s fd
        | some ops =>
            simp only [hops] at h
            rw [Outcome.bind_eq_ok] at h
            obtain ⟨⟨count, store⟩, -, h⟩ := h
            simp only [pure, Except.pure, Except.ok.injEq,
              Prod.mk.injEq] at h
            obtain ⟨-, -, rfl⟩ := h
            by_cases hread : 0 < count
            · rw [if_pos hread]
              refine .setObject hslot hfile ?_ s.device
              rfl
            · rw [if_neg hread]
              exact .refl s fd

theorem vfsWrite_edits
    {fd : ℤ} {buffer : ByteStore} {size written : ℕ}
    (h : s.vfsWrite fd buffer size = .ok (written, next)) :
    Edits s next fd := by
  unfold vfsWrite at h
  split_ifs at h with hnull hstdout
  · simp only [pure, Except.pure, Except.ok.injEq, Prod.mk.injEq] at h
    rw [← h.2]
    exact .refl s fd
  · simp only [pure, Except.pure, Except.ok.injEq, Prod.mk.injEq] at h
    rw [← h.2]
    exact ⟨rfl, .inl rfl⟩
  · cases hslot : s.vfsFdGet fd with
    | none =>
        simp only [hslot, pure, Except.pure, Except.ok.injEq,
          Prod.mk.injEq] at h
        rw [← h.2]
        exact .refl s fd
    | some address =>
        simp only [hslot] at h
        unfold vfsFileWrite at h
        rw [Outcome.bind_eq_ok] at h
        obtain ⟨file, hfile, h⟩ := h
        cases hops : s.vfsCurrentFs with
        | none =>
            simp only [hops, pure, Except.pure, Except.ok.injEq,
              Prod.mk.injEq] at h
            rw [← h.2]
            exact .refl s fd
        | some ops =>
            simp only [hops] at h
            rw [Outcome.bind_eq_ok] at h
            obtain ⟨⟨count, device⟩, -, h⟩ := h
            simp only [pure, Except.pure, Except.ok.injEq,
              Prod.mk.injEq] at h
            obtain ⟨-, rfl⟩ := h
            refine .setObject hslot hfile ?_ device
            unfold advanceFile startFile
            split_ifs <;> rfl

theorem vfsSeek_edits
    {fd : ℤ} {offset whence position : ℕ}
    (h : s.vfsSeek fd offset whence = .ok (position, next)) :
    Edits s next fd := by
  unfold vfsSeek at h
  cases hslot : s.vfsFdGet fd with
  | none =>
      simp only [hslot, pure, Except.pure, Except.ok.injEq,
        Prod.mk.injEq] at h
      rw [← h.2]
      exact .refl s fd
  | some address =>
      simp only [hslot] at h
      rw [Outcome.bind_eq_ok] at h
      obtain ⟨file, hfile, h⟩ := h
      simp only [pure, Except.pure, Except.ok.injEq, Prod.mk.injEq] at h
      obtain ⟨-, rfl⟩ := h
      refine .setObject hslot hfile ?_ s.device
      rfl

theorem vfsFdGet_eq_some
    {fd : ℤ} (h : s.vfsFdGet fd = some address) :
    ∃ current table, s.vfsFdTable = some current ∧
      s.tables current = some table ∧ 0 ≤ fd ∧
      table.files fd.toNat = some address := by
  unfold vfsFdGet at h
  split_ifs at h with hrange
  obtain ⟨table, htable, hslot⟩ := Option.bind_eq_some_iff.1 h
  obtain ⟨current, hcurrent, htable⟩ := Option.bind_eq_some_iff.1 htable
  exact ⟨current, table, hcurrent, htable, by omega, hslot⟩

/-- A call leaves the descriptors alone that are not its own. -/
structure Frames (s next : Vfs Device) (stdOutFile : ℕ) (fd : ℤ) : Prop where
  consistent : Consistent next stdOutFile
  others : 3 ≤ fd → ∀ q : ℕ × ℕ, 3 ≤ q.2 →
    ¬(s.vfsFdTable = some q.1 ∧ (q.2 : ℤ) = fd) → Untouched s next q
  objects : SameObjects s next

theorem Consistent.apart
    (h : Consistent s stdOutFile) {fd : ℤ}
    (hcurrent : s.vfsFdTable = some current)
    (htable : s.tables current = some table)
    (hslot : table.files fd.toNat = some address) (hfd : 3 ≤ fd)
    {q : ℕ × ℕ} (hq : ¬(s.vfsFdTable = some q.1 ∧ (q.2 : ℤ) = fd)) :
    q ≠ (current, fd.toNat) ∧ s.slot q ≠ some address := by
  have hin : s.slot (current, fd.toNat) = some address := by
    rw [slot_of_table htable, hslot]
  have hne : q ≠ (current, fd.toNat) := by
    rintro rfl
    exact hq ⟨hcurrent, by simp only; omega⟩
  have haddress : address ≠ stdOutFile := by
    intro heq
    have hindex := (h.counts.stdout _ _ hin).2 heq
    simp only [stdoutSlot] at hindex
    omega
  exact ⟨hne, fun heq => hne (h.counts.unique address haddress heq hin)⟩

theorem Consistent.edits
    (h : Consistent s stdOutFile) {fd : ℤ} (hedits : Edits s next fd) :
    Frames s next stdOutFile fd := by
  obtain ⟨htables, hobjects⟩ := hedits
  have hslot : next.slot = s.slot := by
    funext q
    rw [slot, htables]
    rfl
  rcases hobjects with hobjects | ⟨address, file, new, hget, hobject, hcount,
    hobjects⟩
  · exact {
      consistent := h.same htables hobjects
      others := fun _ q _ _ => untouched_of (congrFun hslot q) fun a _ => by
        rw [hobjects]
      objects := fun a => by rw [hobjects] }
  · exact {
      consistent := {
        counts := by
          rw [hslot, hobjects]
          exact h.counts.keep hobject hcount
        region := by
          rw [htables]
          exact h.region
        count := by
          rw [htables]
          exact h.count }
      others := by
        intro hfd q _ hq
        obtain ⟨current, table, hcurrent, htable, -, hfiles⟩ :=
          vfsFdGet_eq_some hget
        have hapart := (h.apart hcurrent htable hfiles hfd hq).2
        refine untouched_of (congrFun hslot q) fun a ha => ?_
        rw [hobjects, Function.update_of_ne]
        rintro rfl
        exact hapart ha
      objects := sameObjects_setObject hobject new hobjects }

theorem Consistent.vfsClose
    (h : Consistent s stdOutFile) {fd result : ℤ}
    (hclose : s.vfsClose fd = .ok (result, next)) :
    Frames s next stdOutFile fd := by
  unfold Vfs.vfsClose at hclose
  cases hget : s.vfsFdGet fd with
  | none =>
      have hsame : next = s := by
        cases hcurrent : s.vfsFdTable with
        | none =>
            simp only [hcurrent, hget, pure, Except.pure, Except.ok.injEq,
              Prod.mk.injEq] at hclose
            exact hclose.2.symm
        | some current =>
            simp only [hcurrent, hget, pure, Except.pure, Except.ok.injEq,
              Prod.mk.injEq] at hclose
            exact hclose.2.symm
      rw [hsame]
      exact h.edits (.refl s fd)
  | some address =>
      obtain ⟨current, table, hcurrent, htable, -, hfiles⟩ :=
        vfsFdGet_eq_some hget
      obtain ⟨file, hobject, hfree, hnext⟩ := h.remove htable hfiles
      simp only [hcurrent, hget, fdTable_eq_ok.2 htable, bind, Except.bind,
        hfree, pure, Except.pure, Except.ok.injEq, Prod.mk.injEq] at hclose
      obtain ⟨-, rfl⟩ := hclose
      exact {
        consistent := hnext
        others := by
          intro hfd q _ hq
          obtain ⟨hne, hapart⟩ := h.apart hcurrent htable hfiles hfd hq
          refine untouched_of ?_ fun a ha => Function.update_of_ne ?_ _ _
          · exact (congrFun (slot_setTable htable fd.toNat none
              (table.count - 1)) q).trans (Function.update_of_ne hne _ _)
          · rintro rfl
            exact hapart ha
        objects := sameObjects_setObject hobject _ rfl }

theorem Consistent.vfsFdTableCreate
    (h : Consistent s stdOutFile) {allocated : Option ℕ}
    (hfresh : ∀ address ∈ allocated, s.Fresh address) :
    Consistent (s.vfsFdTableCreate allocated).2 stdOutFile ∧
      SameObjects s (s.vfsFdTableCreate allocated).2 := by
  cases allocated with
  | none => exact ⟨h, fun _ => rfl⟩
  | some address =>
      have hnew := hfresh address rfl
      have hslot : (s.setTable address ⟨fun _ => none, 0⟩).slot =
          s.slot := by
        funext q
        by_cases hq : q.1 = address
        · simp [slot, setTable, hq, hnew.table]
        · simp [slot, setTable, hq]
      refine ⟨{
        counts := ?_
        region := ?_
        count := ?_ }, fun _ => rfl⟩
      · change Counts s.objects
          (s.setTable address ⟨fun _ => none, 0⟩).slot stdOutFile
        rw [hslot]
        exact h.counts
      · intro a t ht
        rcases tables_setTable ht with ⟨rfl, -⟩ | ⟨-, hold⟩
        · exact hnew.heap
        · exact h.region a t hold
      · intro a t ht
        rcases tables_setTable ht with ⟨-, rfl⟩ | ⟨-, hold⟩
        · simp [usedSlots]
        · exact h.count a t hold

/-- Some slots of a table are emptied. -/
def clearSlots (slot : ℕ × ℕ → Option ℕ) (current : ℕ) :
    List ℕ → ℕ × ℕ → Option ℕ
  | [] => slot
  | i :: rest => clearSlots (Function.update slot (current, i) none) current rest

theorem clearSlots_apply
    (slot : ℕ × ℕ → Option ℕ) (current : ℕ) (indices : List ℕ) (q : ℕ × ℕ) :
    clearSlots slot current indices q =
      if q.1 = current ∧ q.2 ∈ indices then none else slot q := by
  induction indices generalizing slot with
  | nil => simp [clearSlots]
  | cons i rest ih =>
      rw [clearSlots, ih]
      by_cases hq : q = (current, i)
      · subst hq
        simp
      · rw [Function.update_of_ne hq]
        have hne : ¬(q.1 = current ∧ q.2 = i) := fun hboth =>
          hq (Prod.ext hboth.1 hboth.2)
        by_cases hrest : q.1 = current ∧ q.2 ∈ rest
        · rw [if_pos hrest, if_pos ⟨hrest.1, List.mem_cons_of_mem _ hrest.2⟩]
        · rw [if_neg hrest, if_neg]
          rintro ⟨htable, hmem⟩
          rcases List.mem_cons.1 hmem with hi | htail
          · exact hne ⟨htable, hi⟩
          · exact hrest ⟨htable, htail⟩

/-- What the loop of `vfs_fd_table_destroy` does to the counts. -/
theorem releaseSlots_counts
    {slot : ℕ × ℕ → Option ℕ} {indices : List ℕ}
    (h : Counts s.objects slot stdOutFile) (hnodup : indices.Nodup)
    (hslots : ∀ i ∈ indices, slot (current, i) = table.files i) :
    ∃ next, releaseSlots table indices s = .ok next ∧
      next.tables = s.tables ∧ SameObjects s next ∧
      Counts next.objects (clearSlots slot current indices) stdOutFile := by
  induction indices generalizing s slot with
  | nil => exact ⟨s, rfl, rfl, fun _ => rfl, h⟩
  | cons i rest ih =>
      obtain ⟨hi, hrestNodup⟩ := List.nodup_cons.1 hnodup
      have hin := hslots i List.mem_cons_self
      have hrest : ∀ k ∈ rest,
          Function.update slot (current, i) none (current, k) =
            table.files k := by
        intro k hk
        have hne : (current, k) ≠ (current, i) := by
          rintro heq
          exact hi ((Prod.mk.inj heq).2 ▸ hk)
        rw [Function.update_of_ne hne]
        exact hslots k (List.mem_cons_of_mem _ hk)
      cases hfile : table.files i with
      | none =>
          have hsame : Function.update slot (current, i) none = slot := by
            rw [Function.update_eq_self_iff, hin, hfile]
          rw [← hsame] at h
          obtain ⟨next, hok, hresult⟩ := ih h hrestNodup hrest
          refine ⟨next, ?_, hresult⟩
          simp only [releaseSlots, hfile]
          exact hok
      | some address =>
          rw [hfile] at hin
          obtain ⟨file, hobject⟩ := h.object hin
          have hlast := h.counted.spare_lt hin
            (n := file.refCount) (by rw [hobject]; rfl)
          have hremoved := h.remove hin hobject
          obtain ⟨next, hok, htables, hobjects, hcounts⟩ :=
            ih (s := s.setObject address
              { file with refCount := file.refCount - 1 }) hremoved
              hrestNodup hrest
          refine ⟨next, ?_, htables, fun a => (hobjects a).trans
            (sameObjects_setObject hobject _ rfl a), hcounts⟩
          simp only [releaseSlots, hfile, bind, Except.bind,
            release_eq_ok hobject hlast (h.refCount_lt hobject)]
          exact hok

theorem Consistent.vfsFdTableDestroy
    (h : Consistent s stdOutFile)
    (hdestroy : s.vfsFdTableDestroy current = .ok next) :
    Consistent next stdOutFile ∧ SameObjects s next := by
  unfold Vfs.vfsFdTableDestroy at hdestroy
  rw [Outcome.bind_eq_ok] at hdestroy
  obtain ⟨table, htable, hdestroy⟩ := hdestroy
  rw [fdTable_eq_ok] at htable
  obtain ⟨middle, hok, htables, hobjects, hcounts⟩ :=
    releaseSlots_counts h.counts (List.nodup_range (n := fdMax))
      (fun i _ => slot_of_table htable i)
  simp only [hok, bind, Except.bind, pure, Except.pure,
    Except.ok.injEq] at hdestroy
  subst hdestroy
  have hold : ∀ a t, Function.update middle.tables current none a = some t →
      s.tables a = some t := by
    intro a t ht
    have hne : a ≠ current := by
      rintro rfl
      rw [Function.update_self] at ht
      cases ht
    rwa [Function.update_of_ne hne, htables] at ht
  refine ⟨{
    counts := ?_
    region := fun a t ht => h.region a t (hold a t ht)
    count := fun a t ht => h.count a t (hold a t ht) }, hobjects⟩
  have hslot : ({ middle with
      tables := Function.update middle.tables current none } :
        Vfs Device).slot =
      clearSlots s.slot current (List.range fdMax) := by
    funext q
    rw [clearSlots_apply]
    change (Function.update middle.tables current none q.1).bind _ = _
    by_cases hq : q.1 = current
    · rw [hq, Function.update_self, Option.bind_none]
      by_cases hin : q.2 ∈ List.range fdMax
      · rw [if_pos ⟨rfl, hin⟩]
      · rw [if_neg (fun hboth => hin hboth.2)]
        cases hcase : s.slot q with
        | none => rfl
        | some address =>
            exact absurd (List.mem_range.2 (h.counts.index q _ hcase).2) hin
    · rw [Function.update_of_ne hq, htables, if_neg (fun hboth => hq hboth.1)]
      rfl
  rw [hslot]
  exact hcounts

/-! ## Runs -/

theorem AtStart.consistent
    (h : AtStart s stdOutFile) : Consistent s stdOutFile := by
  have hnone : ∀ q a, s.slot q ≠ some a := by
    intro q a hq
    rw [slot, h.tables, Option.bind_none] at hq
    cases hq
  have hempty : ∀ a, refs s.slot a = ∅ := fun a =>
    refs_eq_empty fun q => hnone q a
  obtain ⟨out, hout, hcount⟩ := h.stdout
  exact {
    counts := {
      counted := {
        live := fun q a hq => absurd hq (hnone q a)
        finite := fun a => by
          rw [hempty]
          exact Set.finite_empty
        counted := by
          intro a n hn
          obtain ⟨file, hfile, rfl⟩ := Option.map_eq_some_iff.1 hn
          have ha := h.objects a (by rw [hfile]; rfl)
          rw [ha, hout, Option.some.injEq] at hfile
          rw [hempty, Set.ncard_empty, ← hfile, hcount] }
      unique := fun a _ => by
        rw [hempty]
        exact Set.subsingleton_empty
      stdout := fun q a hq => absurd hq (hnone q a)
      index := fun q a hq => absurd hq (hnone q a)
      region := fun q a hq => absurd hq (hnone q a)
      present := ⟨out, hout⟩
      static := h.static }
    region := by
      intro a t ht
      rw [h.tables] at ht
      cases ht
    count := by
      intro a t ht
      rw [h.tables] at ht
      cases ht }

structure Performs (s next : Vfs Device) (stdOutFile : ℕ) (call : Call) :
    Prop where
  consistent : Consistent next stdOutFile
  objects : (¬ call.Allocates s ∧ SameObjects s next) ∨
    (call.Allocates s ∧ (∃ address ≠ stdOutFile,
        (next.objects address).isSome = true) ∧
      ∀ a, (s.objects a).isSome = true → (next.objects a).isSome = true)

/-- The descriptor a call is about. -/
def Call.On (fd : ℤ) : Call → Prop
  | .close fd' => fd' = fd
  | .read fd' _ _ => fd' = fd
  | .write fd' _ _ => fd' = fd
  | .seek fd' _ _ => fd' = fd
  | _ => False

theorem Consistent.frames
    (h : Consistent s stdOutFile) {call : Call} {fd result : ℤ}
    (hon : call.On fd)
    (hcall : s.perform stdOutFile call = .ok (result, next)) :
    Frames s next stdOutFile fd := by
  cases call with
  | fdTableCreate => exact hon.elim
  | fdTableDestroy => exact hon.elim
  | switchTable => exact hon.elim
  | openPath => exact hon.elim
  | close fd' =>
      cases hon
      simp only [perform] at hcall
      rw [Outcome.bind_eq_ok] at hcall
      obtain ⟨-, -, hclose⟩ := hcall
      exact h.vfsClose hclose
  | read fd' buffer size =>
      cases hon
      cases buffer with
      | none =>
          simp only [perform, pure, Except.pure, Except.ok.injEq,
            Prod.mk.injEq] at hcall
          rw [← hcall.2]
          exact h.edits (.refl s _)
      | some buffer =>
          simp only [perform] at hcall
          rw [Outcome.bind_eq_ok] at hcall
          obtain ⟨-, -, hcall⟩ := hcall
          rw [Outcome.bind_eq_ok] at hcall
          obtain ⟨⟨count, filled, after⟩, hread, hcall⟩ := hcall
          simp only [pure, Except.pure, Except.ok.injEq,
            Prod.mk.injEq] at hcall
          obtain ⟨-, rfl⟩ := hcall
          exact h.edits (vfsRead_edits hread)
  | write fd' buffer size =>
      cases hon
      cases buffer with
      | none =>
          simp only [perform, pure, Except.pure, Except.ok.injEq,
            Prod.mk.injEq] at hcall
          rw [← hcall.2]
          exact h.edits (.refl s _)
      | some buffer =>
          simp only [perform] at hcall
          rw [Outcome.bind_eq_ok] at hcall
          obtain ⟨-, -, hcall⟩ := hcall
          rw [Outcome.bind_eq_ok] at hcall
          obtain ⟨⟨count, after⟩, hwrite, hcall⟩ := hcall
          simp only [pure, Except.pure, Except.ok.injEq,
            Prod.mk.injEq] at hcall
          obtain ⟨-, rfl⟩ := hcall
          exact h.edits (vfsWrite_edits hwrite)
  | seek fd' offset whence =>
      cases hon
      simp only [perform] at hcall
      rw [Outcome.bind_eq_ok] at hcall
      obtain ⟨-, -, hcall⟩ := hcall
      rw [Outcome.bind_eq_ok] at hcall
      obtain ⟨⟨position, after⟩, hseek, hcall⟩ := hcall
      simp only [pure, Except.pure, Except.ok.injEq, Prod.mk.injEq] at hcall
      obtain ⟨-, rfl⟩ := hcall
      exact h.edits (vfsSeek_edits hseek)

theorem Frames.performs
    {call : Call} {fd : ℤ} (h : Frames s next stdOutFile fd)
    (hon : call.On fd) : Performs s next stdOutFile call where
  consistent := h.consistent
  objects := by
    refine .inl ⟨fun hallocates => ?_, h.objects⟩
    cases call with
    | openPath => exact hon
    | fdTableCreate => exact hon
    | fdTableDestroy => exact hon
    | switchTable => exact hon
    | close => exact hallocates
    | read => exact hallocates
    | write => exact hallocates
    | seek => exact hallocates

theorem Consistent.perform
    (h : Consistent s stdOutFile) {call : Call} {result : ℤ}
    (hallowed : call.Allowed s)
    (hcall : s.perform stdOutFile call = .ok (result, next)) :
    Performs s next stdOutFile call := by
  cases call with
  | fdTableCreate allocated =>
      obtain ⟨hnext, hobjects⟩ := h.vfsFdTableCreate hallowed
      simp only [Vfs.perform, pure, Except.pure, Except.ok.injEq,
        Prod.mk.injEq] at hcall
      rw [← hcall.2]
      exact ⟨hnext, .inl ⟨fun hallocates => hallocates, hobjects⟩⟩
  | fdTableDestroy table =>
      cases table with
      | none =>
          simp only [Vfs.perform, pure, Except.pure, Except.ok.injEq,
            Prod.mk.injEq] at hcall
          rw [← hcall.2]
          exact ⟨h, .inl ⟨fun hallocates => hallocates, fun _ => rfl⟩⟩
      | some table =>
          simp only [Vfs.perform] at hcall
          rw [Outcome.bind_eq_ok] at hcall
          obtain ⟨after, hdestroy, hcall⟩ := hcall
          simp only [pure, Except.pure, Except.ok.injEq,
            Prod.mk.injEq] at hcall
          obtain ⟨-, rfl⟩ := hcall
          obtain ⟨hnext, hobjects⟩ := h.vfsFdTableDestroy hdestroy
          exact ⟨hnext, .inl ⟨fun hallocates => hallocates, hobjects⟩⟩
  | switchTable table =>
      simp only [Vfs.perform, pure, Except.pure, Except.ok.injEq,
        Prod.mk.injEq] at hcall
      rw [← hcall.2]
      exact ⟨h.same rfl rfl,
        .inl ⟨fun hallocates => hallocates, fun _ => rfl⟩⟩
  | openPath path flags allocated =>
      have hopens := h.vfsOpen hallowed hcall
      exact ⟨hopens.consistent, hopens.objects⟩
  | close fd =>
      have hon : Call.On fd (.close fd) := rfl
      exact (h.frames hon hcall).performs hon
  | read fd buffer size =>
      have hon : Call.On fd (.read fd buffer size) := rfl
      exact (h.frames hon hcall).performs hon
  | write fd buffer size =>
      have hon : Call.On fd (.write fd buffer size) := rfl
      exact (h.frames hon hcall).performs hon
  | seek fd offset whence =>
      have hon : Call.On fd (.seek fd offset whence) := rfl
      exact (h.frames hon hcall).performs hon

end

section

variable {start s : Vfs Device} {stdOutFile : ℕ}
  {trace : List (Vfs Device × Call)}

theorem Run.consistent
    (hstart : AtStart start stdOutFile)
    (hrun : Run stdOutFile start trace s) : Consistent s stdOutFile := by
  induction hrun with
  | start => exact hstart.consistent
  | call _ hallowed hcall ih => exact (ih.perform hallowed hcall).consistent

/-- File objects are made by calls of `vfs_open`, and never freed. -/
theorem Run.objects
    (hstart : AtStart start stdOutFile)
    (hrun : Run stdOutFile start trace s) :
    (∃ address ≠ stdOutFile, (s.objects address).isSome = true) ↔
      ∃ made ∈ trace, made.2.Allocates made.1 := by
  induction hrun with
  | start =>
      constructor
      · rintro ⟨address, hne, hobject⟩
        exact absurd (hstart.objects address hobject) hne
      · rintro ⟨made, hmade, -⟩
        cases hmade
  | @call trace s next call result hrun hallowed hcall ih =>
      have hperforms := (hrun.consistent hstart).perform hallowed hcall
      rcases hperforms.objects with ⟨hnot, hsame⟩ | ⟨hallocates, hnew, -⟩
      · simp only [hsame _]
        rw [ih]
        constructor
        · rintro ⟨made, hmade, hallocates⟩
          exact ⟨made, List.mem_append_left _ hmade, hallocates⟩
        · rintro ⟨made, hmade, hallocates⟩
          rcases List.mem_append.1 hmade with hold | hlast
          · exact ⟨made, hold, hallocates⟩
          · rw [List.mem_singleton.1 hlast] at hallocates
            exact absurd hallocates hnot
      · exact ⟨fun _ => ⟨(s, call), by simp, hallocates⟩, fun _ => hnew⟩

/-- After any calls every table counts its open slots, every slot refers to an
object, `vfs_open` gives out the lowest free descriptor with an object of its
own, and a call on a descriptor leaves the others alone. -/
theorem descriptors_consistent
    (hstart : AtStart start stdOutFile)
    (hrun : Run stdOutFile start trace s) :
    (∀ address table, s.tables address = some table →
      table.count = usedSlots table.files) ∧
    (∀ q address, s.slot q = some address →
      ∃ file, s.objects address = some file) ∧
    (∀ path flags allocated result next,
      (Call.openPath path flags allocated).Allowed s →
      s.perform stdOutFile (.openPath path flags allocated) =
        .ok (result, next) →
      result = -1 ∨ ∃ current table i address,
        s.vfsFdTable = some current ∧ s.tables current = some table ∧
          Allocated next current table result i address) ∧
    (∀ call fd result next, Call.On fd call → 3 ≤ fd →
      s.perform stdOutFile call = .ok (result, next) →
      ∀ q : ℕ × ℕ, 3 ≤ q.2 → ¬(s.vfsFdTable = some q.1 ∧ (q.2 : ℤ) = fd) →
        Untouched s next q) := by
  have h := hrun.consistent hstart
  refine ⟨h.count, fun q address hq => h.counts.object hq, ?_, ?_⟩
  · intro path flags allocated result next hallowed hopen
    exact (h.vfsOpen hallowed hopen).opened
  · intro call fd result next hon hfd hcall
    exact (h.frames hon hcall).others hfd

/-- The reference count of an object in the heap is the number of slots that
refer to it, and an object without such a slot has been freed. -/
def RefCounted (s : Vfs Device) (stdOutFile : ℕ) : Prop :=
  ∀ address ≠ stdOutFile, ∀ file, s.objects address = some file →
    file.refCount = (refs s.slot address).ncard ∧
      (refs s.slot address).Nonempty

/-- The counts are right as long as no call of `vfs_open` has allocated a file
object. -/
theorem refCounted_iff
    (hstart : AtStart start stdOutFile)
    (hrun : Run stdOutFile start trace s) :
    RefCounted s stdOutFile ↔
      ∀ made ∈ trace, ¬ made.2.Allocates made.1 := by
  have h := hrun.consistent hstart
  have hobjects := hrun.objects hstart
  constructor
  · intro hcounted made hmade hallocates
    obtain ⟨address, hne, hobject⟩ := hobjects.2 ⟨made, hmade, hallocates⟩
    obtain ⟨file, hfile⟩ := Option.isSome_iff_exists.1 hobject
    have hexact := (hcounted address hne file hfile).1
    have habove := h.counts.refCount hfile
    omega
  · intro hnone address hne file hfile
    obtain ⟨made, hmade, hallocates⟩ :=
      hobjects.1 ⟨address, hne, by rw [hfile]; rfl⟩
    exact absurd hallocates (hnone made hmade)

end

/-- A volume with the file `f` before any table is made. -/
def volumeStart : Vfs Fat32.Volume where
  device := Fat32.twoFiles
  vfsCurrentFs := some vfsFat32Ops
  objects address :=
    if address = 0xC0108000 then some ⟨[], 0, 0, 1, 1⟩ else none
  tables _ := none
  vfsFdTable := none
  printed := []

theorem volumeStart_atStart : AtStart volumeStart 0xC0108000 where
  tables _ := rfl
  vfsFdTable := rfl
  objects address hobject := by
    by_contra hne
    simp [volumeStart, hne] at hobject
  stdout := ⟨_, rfl, rfl⟩
  static := by decide

def volumeTable : Vfs Fat32.Volume :=
  { volumeStart.setTable 0xD0000020 ⟨fun _ => none, 0⟩ with
    vfsFdTable := some 0xD0000020 }

theorem volumeTable_run :
    Run 0xC0108000 volumeStart
      [(volumeStart, .fdTableCreate (some 0xD0000020)),
        (volumeStart.setTable 0xD0000020 ⟨fun _ => none, 0⟩,
          .switchTable (some 0xD0000020))] volumeTable := by
  have hfirst : (Call.fdTableCreate (some 0xD0000020)).Allowed
      volumeStart := by
    rintro address ⟨rfl⟩
    exact ⟨by decide, rfl, rfl⟩
  have hcreates : volumeStart.perform 0xC0108000
      (.fdTableCreate (some 0xD0000020)) = .ok (0xD0000020,
        volumeStart.setTable 0xD0000020 ⟨fun _ => none, 0⟩) := rfl
  have hsecond : (Call.switchTable (some 0xD0000020)).Allowed
      (volumeStart.setTable 0xD0000020 ⟨fun _ => none, 0⟩) := by
    rintro address ⟨rfl⟩
    rfl
  have hswitches : (volumeStart.setTable 0xD0000020
      ⟨fun _ => none, 0⟩).perform 0xC0108000
        (.switchTable (some 0xD0000020)) = .ok (0, volumeTable) := rfl
  exact (Run.start.call hfirst hcreates).call hsecond hswitches

theorem volumeTable_fresh : volumeTable.Fresh 0xD0000500 where
  heap := by decide
  object := rfl
  table := rfl

theorem volumeTable_allowed :
    (Call.openPath (some [47, 102]) 0 (some 0xD0000500)).Allowed
      volumeTable := by
  rintro address ⟨rfl⟩
  exact volumeTable_fresh

theorem volumeTable_closes :
    ∃ opened closed, volumeTable.perform 0xC0108000
        (.openPath (some [47, 102]) 0 (some 0xD0000500)) = .ok (3, opened) ∧
      opened.perform 0xC0108000 (.close 3) = .ok (0, closed) ∧
      (closed.objects 0xD0000500).map VfsFile.refCount = some 1 := by
  have htest : (do
      let (fd, opened) ← volumeTable.perform 0xC0108000
        (.openPath (some [47, 102]) 0 (some 0xD0000500))
      let (result, closed) ← opened.perform 0xC0108000 (.close 3)
      return (fd, result,
        (closed.objects 0xD0000500).map VfsFile.refCount)).satisfies
        (fun results => decide (results = (3, 0, some 1))) = true := by
    decide +kernel
  obtain ⟨results, hresults, hvalues⟩ := Outcome.exists_of_satisfies htest
  rw [of_decide_eq_true hvalues, Outcome.bind_eq_ok] at hresults
  obtain ⟨⟨fd, opened⟩, hopen, hresults⟩ := hresults
  rw [Outcome.bind_eq_ok] at hresults
  obtain ⟨⟨result, closed⟩, hclose, hresults⟩ := hresults
  simp only [pure, Except.pure, Except.ok.injEq, Prod.mk.injEq] at hresults
  obtain ⟨rfl, rfl, hcount⟩ := hresults
  exact ⟨opened, closed, hopen, hclose, hcount⟩

/-- `/f` is open as descriptor 3 of that table and `/e` as descriptor 3 of a second
one, which is in use. -/
theorem twoTables_run :
    ∃ trace s closed, Run 0xC0108000 volumeStart trace s ∧
      s.slot (0xD0000020, 3) = some 0xD0000500 ∧
      s.slot (0xD0003000, 3) = some 0xD0000700 ∧
      s.vfsFdTable = some 0xD0003000 ∧
      s.perform 0xC0108000 (.close 3) = .ok (0, closed) := by
  have htest : (volumeTable.perform 0xC0108000
      (.openPath (some [47, 102]) 0 (some 0xD0000500))).satisfies (fun first =>
        decide ((first.2.objects 0xD0003000).isNone ∧
          (first.2.tables 0xD0003000).isNone ∧
          (first.2.perform 0xC0108000
            (.fdTableCreate (some 0xD0003000))).satisfies fun second =>
          decide ((second.2.tables 0xD0003000).isSome ∧
            (second.2.perform 0xC0108000
              (.switchTable (some 0xD0003000))).satisfies fun third =>
            decide ((third.2.objects 0xD0000700).isNone ∧
              (third.2.tables 0xD0000700).isNone ∧
              (third.2.perform 0xC0108000
                (.openPath (some [47, 101]) 0 (some 0xD0000700))).satisfies
                fun last => decide (
                  last.2.slot (0xD0000020, 3) = some 0xD0000500 ∧
                  last.2.slot (0xD0003000, 3) = some 0xD0000700 ∧
                  last.2.vfsFdTable = some 0xD0003000 ∧
                  (last.2.perform 0xC0108000 (.close 3)).satisfies
                    fun closed => closed.1 = 0))))) = true := by
    decide +kernel
  obtain ⟨⟨fd, first⟩, hfirst, htest⟩ := Outcome.exists_of_satisfies htest
  obtain ⟨hobject, htable, htest⟩ := of_decide_eq_true htest
  obtain ⟨⟨table, second⟩, hsecond, htest⟩ := Outcome.exists_of_satisfies htest
  obtain ⟨hmade, htest⟩ := of_decide_eq_true htest
  obtain ⟨⟨old, third⟩, hthird, htest⟩ := Outcome.exists_of_satisfies htest
  obtain ⟨hobject', htable', htest⟩ := of_decide_eq_true htest
  obtain ⟨⟨fd', last⟩, hlast, htest⟩ := Outcome.exists_of_satisfies htest
  obtain ⟨hslot, hslot', hcurrent, htest⟩ := of_decide_eq_true htest
  obtain ⟨⟨result, closed⟩, hclose, hzero⟩ := Outcome.exists_of_satisfies htest
  obtain rfl : result = 0 := of_decide_eq_true hzero
  have hcreates : (Call.fdTableCreate (some 0xD0003000)).Allowed first := by
    rintro address ⟨rfl⟩
    exact ⟨by decide, Option.isNone_iff_eq_none.1 hobject,
      Option.isNone_iff_eq_none.1 htable⟩
  have hswitches : (Call.switchTable (some 0xD0003000)).Allowed second := by
    rintro address ⟨rfl⟩
    exact hmade
  have hopens : (Call.openPath (some [47, 101]) 0 (some 0xD0000700)).Allowed
      third := by
    rintro address ⟨rfl⟩
    exact ⟨by decide, Option.isNone_iff_eq_none.1 hobject',
      Option.isNone_iff_eq_none.1 htable'⟩
  exact ⟨_, last, closed, (((volumeTable_run.call volumeTable_allowed
    hfirst).call hcreates hsecond).call hswitches hthird).call hopens hlast,
    hslot, hslot', hcurrent, hclose⟩

/-- The counts of both tables, the object of each descriptor, and the descriptor of
the first table when that of the second is closed. -/
theorem descriptors_consistent_volume :
    ∃ trace s closed, Run 0xC0108000 volumeStart trace s ∧
      s.perform 0xC0108000 (.close 3) = .ok (0, closed) ∧
      (∀ address table, s.tables address = some table →
        table.count = usedSlots table.files) ∧
      (∃ file, s.objects 0xD0000500 = some file) ∧
      (∃ file, s.objects 0xD0000700 = some file) ∧
      Untouched s closed (0xD0000020, 3) := by
  obtain ⟨trace, s, closed, hrun, hslot, hslot', hcurrent, hclose⟩ :=
    twoTables_run
  obtain ⟨hcount, hobject, -, hothers⟩ :=
    descriptors_consistent volumeStart_atStart hrun
  refine ⟨trace, s, closed, hrun, hclose, hcount, hobject _ _ hslot,
    hobject _ _ hslot', hothers (.close 3) 3 0 closed rfl le_rfl hclose _ le_rfl ?_⟩
  rintro ⟨htable, -⟩
  rw [hcurrent] at htable
  exact absurd htable (by decide)

/-- The counts of that volume after a call that finds no file. -/
theorem refCounted_volume :
    ∃ s, volumeTable.perform 0xC0108000
        (.openPath (some [47, 120]) 0 (some 0xD0000500)) = .ok (-1, s) ∧
      RefCounted s 0xC0108000 := by
  have hmissing : (findOrCreate vfsFat32Ops Fat32.twoFiles [47, 120] 0).satisfies
      (fun found => found.1 = false) = true := by
    decide +kernel
  have hcalled : (volumeTable.perform 0xC0108000
      (.openPath (some [47, 120]) 0 (some 0xD0000500))).satisfies
        (fun result => result.1 = -1) = true := by
    decide +kernel
  obtain ⟨⟨result, s⟩, hcall, hfailed⟩ := Outcome.exists_of_satisfies hcalled
  obtain rfl : result = -1 := of_decide_eq_true hfailed
  have hallowed : (Call.openPath (some [47, 120]) 0 (some 0xD0000500)).Allowed
      volumeTable := by
    rintro address ⟨rfl⟩
    exact volumeTable_fresh
  have hnot : ¬volumeTable.Finds [47, 120] 0 := by
    rintro ⟨ops, device, hops, hfinds⟩
    obtain ⟨found, hfound, hfalse⟩ := Outcome.exists_of_satisfies hmissing
    cases hops
    have hsame : findOrCreate vfsFat32Ops Fat32.twoFiles [47, 120] 0 =
      .ok (true, device) := hfinds
    rw [hfound] at hsame
    cases hsame
    exact Bool.false_ne_true (of_decide_eq_true hfalse).symm
  refine ⟨s, hcall, (refCounted_iff volumeStart_atStart
    (volumeTable_run.call hallowed hcall)).2 ?_⟩
  intro made hmade
  simp only [List.mem_append, List.mem_cons, List.not_mem_nil, or_false] at hmade
  rcases hmade with (rfl | rfl) | rfl
  · exact fun hallocates => hallocates
  · exact fun hallocates => hallocates
  · exact fun hallocates => hnot hallocates.2

/-- After `/f` has been opened and closed its object is still there, with no
slot that refers to it. -/
theorem refCounted_closed :
    ∃ trace s, Run 0xC0108000 volumeStart trace s ∧
      (∃ file, s.objects 0xD0000500 = some file) ∧
      refs s.slot 0xD0000500 = ∅ ∧ ¬ RefCounted s 0xC0108000 := by
  obtain ⟨opened, closed, hopen, hclose, hcount⟩ := volumeTable_closes
  have hallowed : (Call.close 3).Allowed opened := trivial
  have hrun := (volumeTable_run.call volumeTable_allowed hopen).call hallowed
    hclose
  have h := hrun.consistent volumeStart_atStart
  obtain ⟨file, hfile, hone⟩ := Option.map_eq_some_iff.1 hcount
  have habove := h.counts.refCount hfile
  have hempty : refs closed.slot 0xD0000500 = ∅ := by
    rw [← Set.ncard_eq_zero (h.counts.counted.finite _)]
    omega
  refine ⟨_, closed, hrun, ⟨file, hfile⟩, hempty, fun hcounted => ?_⟩
  obtain ⟨-, q, hq⟩ := hcounted 0xD0000500 (by decide) file hfile
  rw [hempty] at hq
  exact hq

end Vfs

end ClOs
