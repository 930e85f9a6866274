import ClOs.AtaDrive

/-!
# Transfers

A drive that answers in time delivers and stores the sectors of every transfer, as
`readSectors` and `writeSectors` say it.  Whatever the drive answers, a transfer
moves leading sectors of it as a whole and nothing else.
-/

namespace ClOs

open ByteStore

/-! ## Copies in parts -/

theorem blit_blit_drop
    (store source : ByteStore) {a b n a' b' m total : ℕ}
    (ha : a' = a + n) (hb : b' = b + n) (htotal : total = n + m) :
    (store.blit a (source.drop b) n).blit a' (source.drop b') m =
      store.blit a (source.drop b) total := by
  subst ha hb htotal
  funext k
  by_cases hlow : k < a
  · rw [blit_outside _ _ (.inl (by omega)), blit_outside _ _ (.inl hlow),
      blit_outside _ _ (.inl hlow)]
  by_cases hmid : k < a + n
  · rw [blit_outside _ _ (.inl hmid), blit_inside _ _ (by omega) hmid,
      blit_inside _ _ (by omega) (by omega)]
  by_cases hhigh : k < a + n + m
  · rw [blit_inside _ _ (by omega) hhigh, blit_inside _ _ (by omega) (by omega),
      drop_apply, drop_apply]
    congr 1
    omega
  · rw [blit_outside _ _ (.inr (by omega)), blit_outside _ _ (.inr (by omega)),
      blit_outside _ _ (.inr (by omega))]

section

variable (store source : ByteStore) (a b : ℕ)

theorem blit_zero : store.blit a source 0 = store :=
  funext fun _ => blit_outside _ _ (by omega)

/-- A word that is copied. -/
theorem put16_le16 :
    store.put16 a (source.le16 b) = store.blit a (source.drop b) 2 := by
  have hfirst := (source b).toNat_lt
  refine blit_congr store fun k hk => ?_
  rw [drop_apply, ← UInt8.toNat_inj, byteOf_toNat]
  unfold le16
  interval_cases k
  · simp only [Nat.pow_zero, Nat.div_one, Nat.add_zero]
    omega
  · have hsecond := (source (b + 1)).toNat_lt
    omega

end

namespace Ata

/-! ## Looks at the status -/

/-- The drive is done after `k` looks that find it busy. -/
structure Drive.DoneAfter (d : Drive) (k : ℕ) : Prop where
  busy : ∀ j < k, d.answers (d.time + j) = .busy
  done : d.answers (d.time + k) = .done

/-- The drive when a task is done after `k` looks that find it busy. -/
def Drive.finishAfter (d : Drive) (task : Task) : ℕ → Drive
  | 0 => d.tick.finish task
  | k + 1 => d.tick.finishAfter task k

/-- Nothing is to be waited for. -/
def Drive.Settled (d : Drive) : Prop := ∀ task, d.phase ≠ .busy task

section

variable {d : Drive} {task : Task} {k left : ℕ}

theorem inbStatus_settled (h : d.Settled) : d.inbStatus = d := by
  unfold Drive.inbStatus
  split
  next task hphase => exact absurd hphase (h task)
  next => rfl

theorem status_settled (h : d.Settled) : d.status &&& 0x80 = 0 := by
  unfold Drive.status
  split
  next task hphase => exact absurd hphase (h task)
  next => rfl
  next => rfl
  next =>
    split_ifs
    · rfl
    · rfl

theorem status_idle (h : d.phase = .idle) : d.status &&& 0x08 = 0 := by
  unfold Drive.status
  rw [h]
  cases d.error <;> decide

theorem status_busy (h : d.phase = .busy task) : d.status = 0x80 := by
  unfold Drive.status
  rw [h]

theorem finish_settled (d : Drive) (task : Task) : (d.finish task).Settled := by
  intro other
  cases task with
  | fetch lba left => exact fun h => by cases h
  | prepare lba left => exact fun h => by cases h
  | store lba left data =>
      unfold Drive.finish
      simp only
      split_ifs
      · exact fun h => by cases h
      · exact fun h => by cases h
  | flush => exact fun h => by cases h

theorem status_of_no_error (h : d.error = false) : d.status &&& 0x01 = 0 := by
  unfold Drive.status
  split
  · decide
  · decide
  · decide
  · rw [h]
    decide

@[simp] theorem finish_error (d : Drive) (task : Task) :
    (d.finish task).error = d.error := by
  cases task <;> rfl

@[simp] theorem finish_answers (d : Drive) (task : Task) :
    (d.finish task).answers = d.answers := by
  cases task <;> rfl

theorem finishAfter_settled (d : Drive) (task : Task) (k : ℕ) :
    (d.finishAfter task k).Settled := by
  induction k generalizing d with
  | zero => exact finish_settled _ task
  | succ k ih => exact ih d.tick

theorem inbStatus_busy
    (hphase : d.phase = .busy task) (h : d.answers d.time = .busy) :
    d.inbStatus = d.tick := by
  unfold Drive.inbStatus Drive.answer
  rw [hphase]
  simp only [h]

theorem inbStatus_done
    (hphase : d.phase = .busy task) (h : d.DoneAfter 0) :
    d.inbStatus = d.finishAfter task 0 := by
  have hdone : d.answers d.time = .done := h.done
  unfold Drive.inbStatus Drive.answer
  rw [hphase]
  simp only [hdone]
  rfl

theorem Drive.DoneAfter.next
    (h : d.DoneAfter (k + 1)) :
    d.answers d.time = .busy ∧ d.tick.DoneAfter k := by
  refine ⟨h.busy 0 (Nat.succ_pos k), fun j hj => ?_, ?_⟩
  · have hbusy := h.busy (j + 1) (by omega)
    rwa [← Nat.add_assoc, Nat.add_right_comm] at hbusy
  · have hdone := h.done
    rwa [← Nat.add_assoc, Nat.add_right_comm] at hdone

theorem waitBusy_done
    (hphase : d.phase = .busy task) (h : d.DoneAfter k) (hk : k ≤ left) :
    waitBusy left d = (true, d.finishAfter task k) := by
  induction k generalizing d left with
  | zero =>
      unfold waitBusy
      simp only [inbStatus_done hphase h]
      rw [status_settled (finishAfter_settled d task 0)]
      rfl
  | succ k ih =>
      obtain ⟨hbusy, hrest⟩ := h.next
      obtain ⟨left, rfl⟩ := Nat.exists_eq_succ_of_ne_zero
        (Nat.zero_lt_of_lt hk).ne'
      have htick : d.tick.phase = .busy task := hphase
      unfold waitBusy
      simp only [inbStatus_busy hphase hbusy]
      rw [status_busy htick, if_pos (by decide)]
      exact ih htick hrest (Nat.le_of_succ_le_succ hk)

theorem waitBusy_settled (h : d.Settled) (left : ℕ) :
    waitBusy left d = (true, d) := by
  unfold waitBusy
  simp only [inbStatus_settled h]
  rw [status_settled h]
  rfl

/-! ## Loops that wait for a sector -/

/-- A loop that looks for `ATA_SR_DRQ` and, in between, for `ATA_SR_ERR`. -/
structure Polls (wait : ℕ → Drive → Bool × Drive) : Prop where
  ready : ∀ left d, d.inbStatus.status &&& 0x08 ≠ 0 →
    wait left d = (true, d.inbStatus)
  last : ∀ d, ¬d.inbStatus.status &&& 0x08 ≠ 0 →
    (wait 0 d).1 = false ∧
      ((wait 0 d).2 = d.inbStatus ∨ (wait 0 d).2 = d.inbStatus.inbStatus)
  failed : ∀ left d, ¬d.inbStatus.status &&& 0x08 ≠ 0 →
    d.inbStatus.inbStatus.status &&& 0x01 ≠ 0 →
      wait (left + 1) d = (false, d.inbStatus.inbStatus)
  again : ∀ left d, ¬d.inbStatus.status &&& 0x08 ≠ 0 →
    ¬d.inbStatus.inbStatus.status &&& 0x01 ≠ 0 →
      wait (left + 1) d = wait left d.inbStatus.inbStatus

theorem waitRead_polls : Polls waitRead where
  ready left d h := by
    unfold waitRead
    simp only [if_pos h]
  last d h := by
    unfold waitRead
    simp only [if_neg h]
    exact ⟨trivial, .inl trivial⟩
  failed left d h herror := by
    unfold waitRead
    simp only [if_neg h, if_pos herror]
  again left d h herror := by
    rw [waitRead]
    simp only [if_neg h, if_neg herror]

theorem waitWrite_polls : Polls waitWrite where
  ready left d h := by
    unfold waitWrite
    simp only [if_pos h]
  last d h := by
    unfold waitWrite
    simp only [if_neg h]
    split_ifs
    · exact ⟨rfl, .inr rfl⟩
    · exact ⟨rfl, .inr rfl⟩
  failed left d h herror := by
    unfold waitWrite
    simp only [if_neg h, if_pos herror]
  again left d h herror := by
    rw [waitWrite]
    simp only [if_neg h, if_neg herror]

section

variable {wait : ℕ → Drive → Bool × Drive} (h : Polls wait)

include h

/-- Looking once before the loop makes no difference when nothing is to be waited
for then. -/
theorem Polls.look (hsettled : d.inbStatus.Settled) (left : ℕ) :
    wait left d = wait left d.inbStatus := by
  have hsame := inbStatus_settled hsettled
  by_cases hready : d.inbStatus.status &&& 0x08 ≠ 0
  · rw [h.ready left d hready, h.ready left d.inbStatus (by rwa [hsame]), hsame]
  · have hready' : ¬d.inbStatus.inbStatus.status &&& 0x08 ≠ 0 := by rwa [hsame]
    cases left with
    | zero =>
        obtain ⟨hfalse, hdrive⟩ := h.last d hready
        obtain ⟨hfalse', hdrive'⟩ := h.last d.inbStatus hready'
        rw [hsame] at hdrive
        rw [hsame, hsame] at hdrive'
        exact Prod.ext (hfalse.trans hfalse'.symm)
          ((or_self_iff.1 hdrive).trans (or_self_iff.1 hdrive').symm)
    | succ left =>
        by_cases herror : d.inbStatus.inbStatus.status &&& 0x01 ≠ 0
        · rw [h.failed left d hready herror,
            h.failed left d.inbStatus hready' (by rwa [hsame]), hsame, hsame]
        · rw [h.again left d hready herror,
            h.again left d.inbStatus hready' (by rwa [hsame]), hsame, hsame]

theorem Polls.finish
    (hphase : d.phase = .busy task) (herror : d.error = false)
    (hdone : d.DoneAfter k) (hk : k ≤ 2 * left) :
    ∃ rest, wait left d = wait rest (d.finishAfter task k) := by
  induction k using Nat.twoStepInduction generalizing d left with
  | zero =>
      have hlook := inbStatus_done hphase hdone
      refine ⟨left, ?_⟩
      rw [← hlook]
      exact h.look (hlook ▸ finishAfter_settled d task 0) left
  | one =>
      obtain ⟨hfirst, hrest⟩ := hdone.next
      have htick : d.tick.phase = .busy task := hphase
      have hlook := inbStatus_done htick hrest
      obtain ⟨left, rfl⟩ := Nat.exists_eq_succ_of_ne_zero (by omega : left ≠ 0)
      have hready : ¬d.inbStatus.status &&& 0x08 ≠ 0 := by
        rw [inbStatus_busy hphase hfirst, status_busy htick]
        decide
      have hgood : ¬d.inbStatus.inbStatus.status &&& 0x01 ≠ 0 := by
        rw [inbStatus_busy hphase hfirst, hlook]
        exact not_not.2 (status_of_no_error ((finish_error _ _).trans herror))
      refine ⟨left, ?_⟩
      rw [h.again left d hready hgood, inbStatus_busy hphase hfirst, hlook]
      rfl
  | more k ih _ =>
      obtain ⟨hfirst, hrest⟩ := hdone.next
      obtain ⟨hsecond, hlast⟩ := hrest.next
      have htick : d.tick.phase = .busy task := hphase
      have htwo : d.tick.tick.phase = .busy task := hphase
      obtain ⟨left, rfl⟩ := Nat.exists_eq_succ_of_ne_zero (by omega : left ≠ 0)
      have hready : ¬d.inbStatus.status &&& 0x08 ≠ 0 := by
        rw [inbStatus_busy hphase hfirst, status_busy htick]
        decide
      have hgood : ¬d.inbStatus.inbStatus.status &&& 0x01 ≠ 0 := by
        rw [inbStatus_busy hphase hfirst, inbStatus_busy htick hsecond,
          status_busy htwo]
        decide
      obtain ⟨rest, hwait⟩ := ih htwo herror hlast (by omega : k ≤ 2 * left)
      refine ⟨rest, ?_⟩
      rw [h.again left d hready hgood, inbStatus_busy hphase hfirst,
        inbStatus_busy htick hsecond, hwait]
      rfl

/-- A drive with nothing to do never becomes ready. -/
theorem Polls.idle (hphase : d.phase = .idle) (left : ℕ) :
    wait left d = (false, d) := by
  have hsettled : d.Settled := fun task hbusy => by
    rw [hphase] at hbusy
    cases hbusy
  have hsame := inbStatus_settled hsettled
  have hready : ¬d.inbStatus.status &&& 0x08 ≠ 0 := by
    rw [hsame, status_idle hphase]
    exact not_not.2 rfl
  induction left with
  | zero =>
      obtain ⟨hfalse, hdrive⟩ := h.last d hready
      rw [hsame, hsame] at hdrive
      exact Prod.ext hfalse (or_self_iff.1 hdrive)
  | succ left ih =>
      by_cases herror : d.inbStatus.inbStatus.status &&& 0x01 ≠ 0
      · rw [h.failed left d hready herror, hsame, hsame]
      · rw [h.again left d hready herror, hsame, hsame]
        exact ih

theorem Polls.keeps
    {Keeps : Drive → Prop} (hlook : ∀ d, Keeps d → Keeps d.inbStatus)
    (hd : Keeps d) (left : ℕ) :
    Keeps (wait left d).2 ∧ ((wait left d).1 = true →
      (wait left d).2.status &&& 0x08 ≠ 0) := by
  induction left generalizing d with
  | zero =>
      by_cases hready : d.inbStatus.status &&& 0x08 ≠ 0
      · rw [h.ready 0 d hready]
        exact ⟨hlook d hd, fun _ => hready⟩
      · obtain ⟨hfalse, hdrive⟩ := h.last d hready
        rw [hfalse]
        refine ⟨?_, fun htrue => Bool.noConfusion htrue⟩
        rcases hdrive with hdrive | hdrive
        · rw [hdrive]
          exact hlook d hd
        · rw [hdrive]
          exact hlook _ (hlook d hd)
  | succ left ih =>
      by_cases hready : d.inbStatus.status &&& 0x08 ≠ 0
      · rw [h.ready _ d hready]
        exact ⟨hlook d hd, fun _ => hready⟩
      · have hagain := hlook _ (hlook d hd)
        by_cases herror : d.inbStatus.inbStatus.status &&& 0x01 ≠ 0
        · rw [h.failed left d hready herror]
          exact ⟨hagain, fun htrue => Bool.noConfusion htrue⟩
        · rw [h.again left d hready herror]
          exact ih hagain

end

/-! ## The words of a sector -/

/-- The drive when the last word of a sector has been read. -/
def Drive.sent (d : Drive) (lba left : ℕ) : Drive :=
  { d with
    phase := if left = 1 then .idle else .busy (.fetch (lba + 1) (left - 1)) }

theorem readWords_eq
    {lba sectors word words : ℕ}
    (hphase : d.phase = .sending lba sectors word) (hword : word + words = 255)
    (index : ℕ) (buffer : ByteStore) :
    readWords (words + 1) index d buffer =
      (d.sent lba sectors, buffer.blit (2 * index)
        (d.disk.drop (512 * lba + 2 * word)) (2 * (words + 1))) := by
  induction words generalizing d word index buffer with
  | zero =>
      have hlast : ¬word + 1 < 256 := by omega
      unfold readWords readWords Drive.inwData
      rw [hphase]
      simp only [if_neg hlast, put16_le16]
      rfl
  | succ words ih =>
      have hmore : word + 1 < 256 := by omega
      have hinw : d.inwData = (d.disk.le16 (512 * lba + 2 * word),
          { d with phase := .sending lba sectors (word + 1) }) := by
        unfold Drive.inwData
        rw [hphase]
        simp only [if_pos hmore]
      rw [readWords, hinw, ih rfl (by omega)]
      simp only [put16_le16]
      refine Prod.ext rfl ?_
      exact blit_blit_drop buffer d.disk (by ring) (by ring) (by ring)

theorem writeWords_eq
    {lba sectors word words : ℕ} {data : ByteStore}
    (hphase : d.phase = .taking lba sectors word data)
    (hword : word + words = 255) (index : ℕ) (source : ByteStore) :
    writeWords source (words + 1) index d =
      { d with phase := .busy (.store lba sectors (data.blit (2 * word)
        (source.drop (2 * index)) (2 * (words + 1)))) } := by
  induction words generalizing d word index data with
  | zero =>
      have hlast : ¬word + 1 < 256 := by omega
      unfold writeWords writeWords Drive.outwData
      rw [hphase]
      simp only [if_neg hlast, put16_le16]
  | succ words ih =>
      have hmore : word + 1 < 256 := by omega
      have houtw : d.outwData (source.le16 (2 * index)) =
          { d with
            phase := .taking lba sectors (word + 1)
              (data.blit (2 * word) (source.drop (2 * index)) 2) } := by
        unfold Drive.outwData
        rw [hphase]
        simp only [if_pos hmore, put16_le16]
      rw [writeWords, houtw, ih rfl (by omega),
        blit_blit_drop data source (by ring) (by ring)
          (show 2 * (words + 1 + 1) = 2 + 2 * (words + 1) by ring)]

/-! ## Commands -/

/-- A drive without a task that has reported no error. -/
structure Drive.Ready (d : Drive) : Prop where
  phase : d.phase = .idle
  error : d.error = false

def Drive.atTime (d : Drive) (time : ℕ) : Drive := { d with time := time }

/-- From any time on, the drive is done before a loop of the driver gives up. -/
def Drive.Prompt (d : Drive) : Prop :=
  ∀ time, ∃ k ≤ 100000, (d.atTime time).DoneAfter k

theorem Drive.Prompt.congr
    {e : Drive} (h : d.Prompt) (hsame : e.answers = d.answers) : e.Prompt := by
  intro time
  obtain ⟨k, hk, hbusy, hdone⟩ := h time
  exact ⟨k, hk,
    fun j hj => (congrFun hsame (time + j)).trans (hbusy j hj),
    (congrFun hsame (time + k)).trans hdone⟩

theorem finishAfter_eq (d : Drive) (task : Task) (k : ℕ) :
    ∃ time, d.finishAfter task k = (d.atTime time).finish task := by
  induction k generalizing d with
  | zero => exact ⟨d.time + 1, rfl⟩
  | succ k ih =>
      obtain ⟨time, h⟩ := ih d.tick
      exact ⟨time, h⟩

theorem waitForDisk_ready (h : d.Ready) : waitForDisk d = (true, d) := by
  have hsettled : d.Settled := fun task hbusy => by
    rw [h.phase] at hbusy
    cases hbusy
  unfold waitForDisk
  rw [waitBusy_settled hsettled]
  simp only [if_true]
  rw [inbStatus_settled hsettled, status_of_no_error h.error]
  rfl

/-- A drive that has reported an error is not used. -/
theorem waitForDisk_error (hphase : d.phase = .idle) (herror : d.error = true) :
    waitForDisk d = (false, d) := by
  have hsettled : d.Settled := fun task hbusy => by
    rw [hphase] at hbusy
    cases hbusy
  have hstatus : d.status = 0x41 := by
    unfold Drive.status
    rw [hphase, herror]
    rfl
  unfold waitForDisk
  rw [waitBusy_settled hsettled]
  simp only [if_true]
  rw [inbStatus_settled hsettled, hstatus]
  rfl

theorem waitForDisk_busy
    (hphase : d.phase = .busy task) (herror : d.error = false)
    (hprompt : d.Prompt) :
    ∃ time, waitForDisk d = (true, (d.atTime time).finish task) := by
  obtain ⟨k, hk, hdone⟩ : ∃ k ≤ 100000, d.DoneAfter k := hprompt d.time
  obtain ⟨time, hfinish⟩ := finishAfter_eq d task k
  have hsettled := finish_settled (d.atTime time) task
  refine ⟨time, ?_⟩
  unfold waitForDisk
  rw [waitBusy_done hphase hdone (by unfold patience; omega)]
  simp only [if_true]
  rw [hfinish, inbStatus_settled hsettled,
    status_of_no_error ((finish_error (d.atTime time) task).trans herror)]
  rfl

theorem select_lba (lba count : ℕ) (d : Drive) :
    (select lba count d).lba = lba % 268435456 := by
  have hor : ∀ x < 16, (0xE0 ||| x) % 256 % 16 = x := by decide
  have hlow : lba >>> 24 &&& 0x0F = lba >>> 24 % 16 :=
    Nat.and_two_pow_sub_one_eq_mod _ 4
  unfold select Drive.lba
  simp only
  rw [hlow, hor _ (Nat.mod_lt _ (by decide)), Nat.shiftRight_eq_div_pow,
    Nat.shiftRight_eq_div_pow, Nat.shiftRight_eq_div_pow]
  omega

theorem select_count (lba count : ℕ) (d : Drive) :
    (select lba count d).count = (count + 255) % 256 + 1 := by
  unfold select Drive.count
  simp only
  split_ifs <;> omega

theorem outbCommand_read (hphase : d.phase = .idle) :
    d.outbCommand 0x20 =
      { d with phase := .busy (.fetch d.lba d.count), error := false } := by
  unfold Drive.outbCommand
  rw [hphase]
  rfl

theorem outbCommand_write (hphase : d.phase = .idle) :
    d.outbCommand 0x30 =
      { d with phase := .busy (.prepare d.lba d.count), error := false } := by
  unfold Drive.outbCommand
  rw [hphase]
  rfl

theorem outbCommand_busy (hphase : d.phase = .busy task) (value : ℕ) :
    d.outbCommand value = d := by
  unfold Drive.outbCommand
  rw [hphase]

/-! ## Reading from a prompt drive -/

theorem readLoop_idle
    (hphase : d.phase = .idle) (sectors index : ℕ) (buffer : ByteStore) :
    readLoop sectors index d buffer = (d, buffer) := by
  cases sectors with
  | zero => rfl
  | succ sectors =>
      unfold readLoop
      rw [waitRead_polls.idle hphase]
      rfl

/-- A sector that a prompt drive has been asked for is waited for. -/
theorem Polls.prompt
    {wait : ℕ → Drive → Bool × Drive} (h : Polls wait)
    (hphase : d.phase = .busy task) (herror : d.error = false)
    (hprompt : d.Prompt) :
    ∃ rest time, wait patience d =
      wait rest ((d.atTime time).finish task) := by
  obtain ⟨k, hk, hdone⟩ := hprompt d.time
  obtain ⟨rest, hwait⟩ := @Polls.finish d task k patience wait h hphase herror
    hdone (by unfold patience; omega)
  obtain ⟨time, hfinish⟩ := finishAfter_eq d task k
  exact ⟨rest, time, by rw [hwait, hfinish]⟩

/-- A drive that waits for a word to be moved ends the loop. -/
theorem Polls.moved
    {wait : ℕ → Drive → Bool × Drive} (h : Polls wait) (hsettled : d.Settled)
    (hstatus : d.status = 0x48) (left : ℕ) : wait left d = (true, d) := by
  have hsame := inbStatus_settled hsettled
  have hready : d.inbStatus.status &&& 0x08 ≠ 0 := by
    rw [hsame, hstatus]
    decide
  rw [h.ready left d hready, hsame]

theorem readLoop_prompt
    {sectors lba : ℕ} (hphase : d.phase = .busy (.fetch lba left))
    (hleft : 0 < left) (hle : left ≤ sectors) (herror : d.error = false)
    (hprompt : d.Prompt) (index : ℕ) (buffer : ByteStore) :
    ∃ e, readLoop sectors index d buffer =
        (e, buffer.blit (2 * index) (d.disk.drop (512 * lba)) (512 * left)) ∧
      e.disk = d.disk ∧ e.Ready ∧ e.answers = d.answers := by
  induction sectors generalizing d lba left index buffer with
  | zero => omega
  | succ sectors ih =>
      obtain ⟨rest, time, hwait⟩ := waitRead_polls.prompt hphase herror hprompt
      have hmoved := waitRead_polls.moved
        (finish_settled (d.atTime time) (.fetch lba left)) rfl rest
      have hwords := @readWords_eq
        ((d.atTime time).finish (.fetch lba left)) lba left 0 255 rfl rfl
        index buffer
      unfold readLoop
      rw [hwait, hmoved]
      simp only [if_true, hwords]
      by_cases hlast : left = 1
      · subst hlast
        rw [readLoop_idle rfl]
        exact ⟨_, rfl, rfl, ⟨rfl, herror⟩, rfl⟩
      · obtain ⟨e, hrest, hdisk, hready, hanswers⟩ := @ih
          (((d.atTime time).finish (.fetch lba left)).sent lba left)
          (left - 1) (lba + 1) (if_neg hlast) (by omega) (by omega) herror
          (hprompt.congr rfl) (index + 256)
          (buffer.blit (2 * index) (d.disk.drop (512 * lba)) 512)
        refine ⟨e, hrest.trans (Prod.ext rfl ?_), hdisk, hready, hanswers⟩
        exact blit_blit_drop buffer d.disk (by ring) (by ring) (by omega)

theorem readSectors_prompt
    (hready : d.Ready) (hprompt : d.Prompt) (lba : ℕ) {count : ℕ}
    (hcount : 0 < count) (buffer : ByteStore) :
    ∃ e, readSectors lba count d buffer = (e, buffer.blit 0
        (ClOs.readSectors d.disk lba) (512 * sectorsMoved count)) ∧
      e.disk = d.disk ∧ e.Ready ∧ e.answers = d.answers := by
  have hmoved : sectorsMoved count = (count + 255) % 256 + 1 := by
    unfold sectorsMoved
    omega
  unfold readSectors ClOs.readSectors sectorBase
  have hidle : (select lba count d).phase = .idle := hready.phase
  rw [waitForDisk_ready hready]
  simp only [if_true]
  rw [outbCommand_read hidle, select_lba, select_count, ← hmoved]
  exact @readLoop_prompt
    { select lba count d with
      phase := .busy (.fetch (lba % 268435456) (sectorsMoved count))
      error := false }
    (sectorsMoved count) count (lba % 268435456) rfl (by omega)
    (sectorsMoved_le count) rfl (hprompt.congr rfl) 0 buffer

/-! ## Writing to a prompt drive -/

/-- The drive works on something and is in a given phase when it is done. -/
structure Drive.Leads (d : Drive) (task : Task) (phase : Phase)
    (disk : ByteStore) : Prop where
  busy : d.phase = .busy task
  phase : ∀ time, ((d.atTime time).finish task).phase = phase
  disk : ∀ time, ((d.atTime time).finish task).disk = disk

theorem taking_status
    {lba word : ℕ} {data : ByteStore} (h : d.phase = .taking lba left word data) :
    d.status = 0x48 := by
  unfold Drive.status
  rw [h]

theorem writeWords_leads
    {lba : ℕ} (hphase : d.phase = .taking lba left 0 fun _ => 0) (index : ℕ)
    (source : ByteStore) :
    (∃ task, (writeWords source 256 index d).Leads task
      (if left = 1 then .idle else .taking (lba + 1) (left - 1) 0 fun _ => 0)
      (d.disk.blit (512 * lba) (source.drop (2 * index)) 512)) ∧
      (writeWords source 256 index d).error = d.error ∧
      (writeWords source 256 index d).answers = d.answers := by
  rw [@writeWords_eq d lba left 0 255 _ hphase rfl index source]
  refine ⟨⟨_, rfl, fun _ => rfl, fun _ => ?_⟩, rfl, rfl⟩
  refine blit_congr d.disk fun k hk => ?_
  rw [blit_inside _ _ (Nat.zero_le k) (by omega)]
  rfl

/-- The loop hands all sectors to a prompt drive, which works on the last one
then, or has waited for another one in vain. -/
theorem writeLoop_prompt
    {sectors lba : ℕ} {disk : ByteStore}
    (hleads : d.Leads task (.taking lba left 0 fun _ => 0) disk)
    (hleft : 0 < left) (hle : left ≤ sectors) (herror : d.error = false)
    (hprompt : d.Prompt) (index : ℕ) (source : ByteStore) :
    ∃ finished e last, writeLoop source sectors index d = (finished, e) ∧
      e.error = false ∧ e.answers = d.answers ∧
      (finished = true → e.Leads last .idle
        (disk.blit (512 * lba) (source.drop (2 * index)) (512 * left))) ∧
      (finished = false → e.phase = .idle ∧ e.disk =
        disk.blit (512 * lba) (source.drop (2 * index)) (512 * left)) := by
  induction sectors generalizing d task disk lba left index with
  | zero => omega
  | succ sectors ih =>
      obtain ⟨rest, time, hwait⟩ :=
        waitWrite_polls.prompt hleads.busy herror hprompt
      have hphase := hleads.phase time
      have hmoved := waitWrite_polls.moved
        (finish_settled (d.atTime time) task) (taking_status hphase) rest
      obtain ⟨⟨next, hnext⟩, hgood, hsame⟩ :=
        writeWords_leads hphase index source
      rw [hleads.disk time] at hnext
      rw [finish_error] at hgood
      rw [finish_answers] at hsame
      have hkept := hprompt.congr hsame
      unfold writeLoop
      rw [hwait, hmoved]
      simp only [if_true]
      generalize writeWords source 256 index ((d.atTime time).finish task) = f
        at hnext hgood hsame hkept ⊢
      have hclean : f.error = false := hgood.trans herror
      by_cases hlast : left = 1
      · subst hlast
        rw [if_pos rfl] at hnext
        cases sectors with
        | zero =>
            exact ⟨true, f, next, rfl, hclean, hsame, fun _ => hnext,
              fun hfalse => Bool.noConfusion hfalse⟩
        | succ sectors =>
            obtain ⟨rest, time, hwait⟩ :=
              waitWrite_polls.prompt hnext.busy hclean hkept
            unfold writeLoop
            rw [hwait, waitWrite_polls.idle (hnext.phase time)]
            exact ⟨false, _, next, rfl, (finish_error _ _).trans hclean,
              (finish_answers _ _).trans hsame,
              fun htrue => Bool.noConfusion htrue,
              fun _ => ⟨hnext.phase time, hnext.disk time⟩⟩
      · rw [if_neg hlast] at hnext
        obtain ⟨finished, e, last, hrest, herror', hanswers, htrue, hfalse⟩ :=
          ih hnext (by omega) (by omega) hclean hkept (index + 256)
        have hjoin : (disk.blit (512 * lba) (source.drop (2 * index)) 512).blit
            (512 * (lba + 1)) (source.drop (2 * (index + 256)))
            (512 * (left - 1)) =
              disk.blit (512 * lba) (source.drop (2 * index)) (512 * left) :=
          blit_blit_drop disk source (by ring) (by ring) (by omega)
        rw [hjoin] at htrue hfalse
        exact ⟨finished, e, last, hrest, herror', hanswers.trans hsame, htrue,
          hfalse⟩

theorem writeSectors_prompt
    (hready : d.Ready) (hprompt : d.Prompt) (lba count : ℕ)
    (source : ByteStore) :
    (writeSectors lba count d source).disk =
        ClOs.writeSectors d.disk lba count source ∧
      (writeSectors lba count d source).Ready ∧
      (writeSectors lba count d source).answers = d.answers := by
  unfold writeSectors ClOs.writeSectors sectorBase
  split_ifs with hzero
  · subst hzero
    exact ⟨(blit_zero _ _ _).symm, hready, rfl⟩
  have hmoved : sectorsMoved count = (count + 255) % 256 + 1 := by
    unfold sectorsMoved
    omega
  have hidle : (select lba count d).phase = .idle := hready.phase
  rw [waitForDisk_ready hready]
  simp only [if_true]
  rw [outbCommand_write hidle, select_lba, select_count, ← hmoved]
  obtain ⟨finished, e, last, hloop, herror, hanswers, htrue, hfalse⟩ :=
    @writeLoop_prompt
      { select lba count d with
        phase := .busy (.prepare (lba % 268435456) (sectorsMoved count))
        error := false }
      (.prepare (lba % 268435456) (sectorsMoved count)) (sectorsMoved count) count
      (lba % 268435456) d.disk ⟨rfl, fun _ => rfl, fun _ => rfl⟩ (by omega)
      (sectorsMoved_le count) rfl (hprompt.congr rfl) 0 source
  rw [hloop]
  have hsource : source.drop (2 * 0) = source := by
    funext k
    simp
  rw [hsource] at htrue hfalse
  cases finished with
  | true =>
      obtain ⟨hbusy, hphase, hdisk⟩ := htrue rfl
      obtain ⟨time, hwait⟩ :=
        waitForDisk_busy hbusy herror (hprompt.congr hanswers)
      simp only [if_true]
      rw [outbCommand_busy hbusy, hwait]
      exact ⟨hdisk time, ⟨hphase time, (finish_error _ _).trans herror⟩,
        (finish_answers _ _).trans hanswers⟩
  | false =>
      obtain ⟨hphase, hdisk⟩ := hfalse rfl
      simp only [Bool.false_eq_true, if_false]
      exact ⟨hdisk, ⟨hphase, herror⟩, hanswers⟩

/-! ## Runs -/

/-- A transfer with its buffer or its source. -/
inductive Transfer
  | read (lba count : ℕ) (buffer : ByteStore)
  | write (lba count : ℕ) (source : ByteStore)

/-- A read of at least one sector, or a write. -/
def Transfer.Moves : Transfer → Prop
  | read _ count _ => 0 < count
  | write _ _ _ => True

def runTransfers : List Transfer → Drive → List ByteStore × Drive
  | [], d => ([], d)
  | .read lba count buffer :: rest, d =>
      let moved := readSectors lba count d buffer
      let last := runTransfers rest moved.1
      (moved.2 :: last.1, last.2)
  | .write lba count source :: rest, d =>
      runTransfers rest (writeSectors lba count d source)

def moveSectors : List Transfer → ByteStore → List ByteStore × ByteStore
  | [], disk => ([], disk)
  | .read lba count buffer :: rest, disk =>
      let last := moveSectors rest disk
      (buffer.blit 0 (ClOs.readSectors disk lba) (512 * sectorsMoved count) ::
        last.1, last.2)
  | .write lba count source :: rest, disk =>
      moveSectors rest (ClOs.writeSectors disk lba count source)

/-- A list of transfers with a prompt drive moves what the transfers of a disk
move. -/
theorem runTransfers_refines
    (hready : d.Ready) (hprompt : d.Prompt) (transfers : List Transfer)
    (hmoves : ∀ t ∈ transfers, t.Moves) :
    (runTransfers transfers d).1 = (moveSectors transfers d.disk).1 ∧
      (runTransfers transfers d).2.disk = (moveSectors transfers d.disk).2 ∧
      (runTransfers transfers d).2.Ready := by
  induction transfers generalizing d with
  | nil => exact ⟨rfl, rfl, hready⟩
  | cons t rest ih =>
      obtain ⟨hfirst, hrest⟩ := List.forall_mem_cons.1 hmoves
      cases t with
      | read lba count buffer =>
          obtain ⟨e, hread, hdisk, heready, hanswers⟩ :=
            readSectors_prompt hready hprompt lba hfirst buffer
          obtain ⟨hbuffers, hlast, hend⟩ :=
            ih heready (hprompt.congr hanswers) hrest
          unfold runTransfers moveSectors
          simp only [hread]
          rw [hdisk] at hbuffers hlast
          exact ⟨by rw [hbuffers], hlast, hend⟩
      | write lba count source =>
          obtain ⟨hdisk, heready, hanswers⟩ :=
            writeSectors_prompt hready hprompt lba count source
          obtain ⟨hbuffers, hlast, hend⟩ :=
            ih heready (hprompt.congr hanswers) hrest
          unfold runTransfers moveSectors
          rw [hdisk] at hbuffers hlast
          exact ⟨hbuffers, hlast, hend⟩

def newDrive (answers : ℕ → Answer) : Drive :=
  ⟨fun _ => 0, 0, 0, 0, 0, 0, .idle, false, answers, 0⟩

def slowDrive : Drive :=
  newDrive fun time => if time % 2 = 0 then .busy else .done

theorem slowDrive_prompt : slowDrive.Prompt := by
  intro time
  rcases Nat.mod_two_eq_zero_or_one time with heven | hodd
  · refine ⟨1, by decide, fun j hj => ?_, ?_⟩
    · obtain rfl : j = 0 := by omega
      exact if_pos heven
    · exact if_neg (show ¬(time + 1) % 2 = 0 by omega)
  · refine ⟨0, by decide, fun j hj => absurd hj (Nat.not_lt_zero j), ?_⟩
    exact if_neg (show ¬(time + 0) % 2 = 0 by omega)

theorem runTransfers_refines_twoTransfers :
    (runTransfers [.write 268435461 1 fun _ => 7, .read 5 300 fun _ => 0]
      slowDrive).1 =
        (moveSectors [.write 268435461 1 fun _ => 7, .read 5 300 fun _ => 0]
          fun _ => 0).1 :=
  (runTransfers_refines (⟨rfl, rfl⟩ : slowDrive.Ready) slowDrive_prompt
    [.write 268435461 1 fun _ => 7, .read 5 300 fun _ => 0]
    (by simp [Transfer.Moves])).1

def Transfer.buffer? : Transfer → Option ByteStore
  | read _ _ buffer => some buffer
  | write _ _ _ => none

theorem runTransfers_error
    (hphase : d.phase = .idle) (herror : d.error = true)
    (transfers : List Transfer) :
    runTransfers transfers d = (transfers.filterMap Transfer.buffer?, d) := by
  induction transfers with
  | nil => rfl
  | cons t rest ih =>
      have hwait := waitForDisk_error hphase herror
      cases t with
      | read lba count buffer =>
          unfold runTransfers readSectors
          rw [hwait]
          simp only [Bool.false_eq_true, if_false, ih]
          rfl
      | write lba count source =>
          have hwrite : writeSectors lba count d source = d := by
            unfold writeSectors
            rw [hwait]
            simp
          rw [runTransfers, hwrite, ih]
          rfl

/-! ## Whatever the drive answers -/

/-- A drive that works on a task is done with it after a look, or it has given up,
or it goes on. -/
theorem inbStatus_cases (hphase : d.phase = .busy task) :
    d.inbStatus.phase = .busy task ∧ d.inbStatus.disk = d.disk ∨
      d.inbStatus.phase = .idle ∧ d.inbStatus.disk = d.disk ∨
        d.inbStatus.phase = (d.finish task).phase ∧
          d.inbStatus.disk = (d.finish task).disk := by
  unfold Drive.inbStatus Drive.answer
  rw [hphase]
  simp only
  cases d.answers d.time with
  | busy => exact .inl ⟨hphase, rfl⟩
  | done =>
      cases task with
      | fetch lba left => exact .inr (.inr ⟨rfl, rfl⟩)
      | prepare lba left => exact .inr (.inr ⟨rfl, rfl⟩)
      | store lba left data => exact .inr (.inr ⟨rfl, rfl⟩)
      | flush => exact .inr (.inr ⟨rfl, rfl⟩)
  | failed => exact .inr (.inl ⟨rfl, rfl⟩)

/-- A drive that works on a task with a known end, or has given up, or is done
with it. -/
inductive Drive.Toward (d : Drive) (task : Task) (disk next : ByteStore)
    (phase : Phase) : Prop
  | working : d.phase = .busy task → d.disk = disk →
      (d.finish task).phase = phase → (d.finish task).disk = next →
        Drive.Toward d task disk next phase
  | stopped : d.phase = .idle → d.disk = disk →
      Drive.Toward d task disk next phase
  | done : d.phase = phase → d.disk = next → Drive.Toward d task disk next phase

theorem finish_congr
    {e : Drive} (hdisk : e.disk = d.disk) (task : Task) :
    (e.finish task).phase = (d.finish task).phase ∧
      (e.finish task).disk = (d.finish task).disk := by
  cases task with
  | fetch lba left => exact ⟨rfl, hdisk⟩
  | prepare lba left => exact ⟨rfl, hdisk⟩
  | store lba left data => exact ⟨rfl, by unfold Drive.finish; rw [hdisk]⟩
  | flush => exact ⟨rfl, hdisk⟩

theorem Drive.Toward.look
    {disk next : ByteStore} {phase : Phase}
    (hsettled : ∀ other, phase ≠ .busy other)
    (h : d.Toward task disk next phase) :
    d.inbStatus.Toward task disk next phase := by
  cases h with
  | working hphase hdisk hend hnext =>
      rcases inbStatus_cases hphase with
        ⟨hbusy, hkept⟩ | ⟨hidle, hkept⟩ | ⟨hlast, hdone⟩
      · obtain ⟨hend', hnext'⟩ := finish_congr hkept task
        exact .working hbusy (hkept.trans hdisk) (hend'.trans hend)
          (hnext'.trans hnext)
      · exact .stopped hidle (hkept.trans hdisk)
      · exact .done (hlast.trans hend) (hdone.trans hnext)
  | stopped hphase hdisk =>
      have hsame : d.inbStatus = d := inbStatus_settled fun other hbusy => by
        rw [hphase] at hbusy
        cases hbusy
      rw [hsame]
      exact .stopped hphase hdisk
  | done hphase hdisk =>
      have hsame : d.inbStatus = d := inbStatus_settled fun other hbusy =>
        hsettled other (hphase.symm.trans hbusy)
      rw [hsame]
      exact .done hphase hdisk

theorem Drive.Toward.disk
    {disk : ByteStore} {phase : Phase} (h : d.Toward task disk disk phase) :
    d.disk = disk := by
  cases h with
  | working _ hsame => exact hsame
  | stopped _ hsame => exact hsame
  | done _ hsame => exact hsame

/-- A phase in which a drive asks for the words of a sector, or for none. -/
theorem asks_settled
    {phase asked : Phase} (hasked : ∀ other, asked ≠ .busy other)
    (h : left = 0 ∧ phase = .idle ∨ 0 < left ∧ phase = asked) (other : Task) :
    phase ≠ .busy other := by
  intro hbusy
  rcases h with ⟨-, hidle⟩ | ⟨-, hphase⟩
  · rw [hidle] at hbusy
    cases hbusy
  · exact hasked other (hphase.symm.trans hbusy)

/-- A drive that asks for a word is done. -/
theorem Drive.Toward.asking
    {disk next : ByteStore} {phase : Phase}
    (h : d.Toward task disk next phase) (hstatus : d.status &&& 0x08 ≠ 0) :
    d.phase = phase ∧ d.disk = next := by
  cases h with
  | working hphase =>
      rw [status_busy hphase] at hstatus
      exact absurd (by decide) hstatus
  | stopped hphase => exact absurd (status_idle hphase) hstatus
  | done hphase hdisk => exact ⟨hphase, hdisk⟩

theorem waitForDisk_keeps
    {Keeps : Drive → Prop} (hlook : ∀ d, Keeps d → Keeps d.inbStatus)
    (hd : Keeps d) : Keeps (waitForDisk d).2 := by
  have hbusy : ∀ left d, Keeps d → Keeps (waitBusy left d).2 := by
    intro left
    induction left with
    | zero =>
        intro d hd
        unfold waitBusy
        simp only
        split_ifs
        · exact hlook d hd
        · exact hlook d hd
    | succ left ih =>
        intro d hd
        unfold waitBusy
        simp only
        split_ifs
        · exact ih _ (hlook d hd)
        · exact hlook d hd
  unfold waitForDisk
  simp only
  split_ifs
  · exact hlook _ (hbusy patience d hd)
  · exact hbusy patience d hd

/-- The buffer gets leading sectors, whatever the drive answers. -/
theorem readLoop_answers
    {sectors lba : ℕ} {disk : ByteStore} {phase : Phase}
    (h : d.Toward task disk disk phase)
    (hphase : left = 0 ∧ phase = .idle ∨ 0 < left ∧ phase = .sending lba left 0)
    (index : ℕ) (buffer : ByteStore) :
    ∃ m ≤ min sectors left,
      (readLoop sectors index d buffer).2 =
          buffer.blit (2 * index) (disk.drop (512 * lba)) (512 * m) ∧
        (readLoop sectors index d buffer).1.disk = disk := by
  induction sectors generalizing d task left lba phase index buffer with
  | zero => exact ⟨0, Nat.zero_le _, (blit_zero _ _ _).symm, h.disk⟩
  | succ sectors ih =>
      have hsettled := asks_settled (fun other hbusy => by cases hbusy) hphase
      obtain ⟨hkept, hasked⟩ := waitRead_polls.keeps
        (fun e (he : e.Toward task disk disk phase) => he.look hsettled) h patience
      unfold readLoop
      generalize waitRead patience d = waited at hkept hasked ⊢
      by_cases hwait : waited.1 = true
      · obtain ⟨hat, hsame⟩ := hkept.asking (hasked hwait)
        simp only [hwait, if_true]
        rcases hphase with ⟨-, hidle⟩ | ⟨hleft, hsending⟩
        · exact absurd (status_idle (hat.trans hidle)) (hasked hwait)
        · rw [hsending] at hat
          rw [@readWords_eq waited.2 lba left 0 255 hat rfl index buffer, hsame]
          have hnext : ∃ next phase,
              (waited.2.sent lba left).Toward next disk disk phase ∧
                (left - 1 = 0 ∧ phase = .idle ∨
                  0 < left - 1 ∧ phase = .sending (lba + 1) (left - 1) 0) := by
            by_cases hlast : left = 1
            · exact ⟨task, .idle, .stopped (if_pos hlast) hsame,
                .inl ⟨by omega, rfl⟩⟩
            · exact ⟨.fetch (lba + 1) (left - 1), .sending (lba + 1) (left - 1) 0,
                .working (if_neg hlast) hsame rfl hsame, .inr ⟨by omega, rfl⟩⟩
          obtain ⟨next, phase', htoward, hleads⟩ := hnext
          obtain ⟨m, hm, hbuffer, hlast⟩ := ih htoward hleads (index + 256)
            (buffer.blit (2 * index) (disk.drop (512 * lba)) 512)
          refine ⟨m + 1, by omega, hbuffer.trans ?_, hlast⟩
          exact blit_blit_drop buffer disk (by ring) (by ring) (by ring)
      · simp only [if_neg hwait]
        exact ⟨0, Nat.zero_le _, (blit_zero _ _ _).symm, hkept.disk⟩

/-- Whatever a drive answers, a read delivers leading sectors as a whole, and the
disk stays. -/
theorem readSectors_answers
    (hready : d.Ready) (lba count : ℕ) (buffer : ByteStore) :
    ∃ m ≤ sectorsMoved count,
      (readSectors lba count d buffer).2 =
          buffer.blit 0 (ClOs.readSectors d.disk lba) (512 * m) ∧
        (readSectors lba count d buffer).1.disk = d.disk := by
  have hmoved : sectorsMoved count = min count ((count + 255) % 256 + 1) := rfl
  unfold readSectors ClOs.readSectors sectorBase
  have hidle : (select lba count d).phase = .idle := hready.phase
  rw [waitForDisk_ready hready]
  simp only [if_true]
  rw [outbCommand_read hidle, select_lba, select_count, hmoved]
  exact @readLoop_answers
    { select lba count d with
      phase := .busy (.fetch (lba % 268435456) ((count + 255) % 256 + 1))
      error := false }
    (.fetch (lba % 268435456) ((count + 255) % 256 + 1)) ((count + 255) % 256 + 1)
    count (lba % 268435456) d.disk _ (.working rfl rfl rfl rfl)
    (.inr ⟨Nat.succ_pos _, rfl⟩) 0 buffer

theorem readSectors_answers_failing :
    ∃ m ≤ 3, (readSectors 5 3
      (newDrive fun time => if time < 4 then .done else .failed)
        fun _ => 1).2 = ByteStore.blit (fun _ => 1) 0 (fun _ => 0) (512 * m) := by
  obtain ⟨m, hm, hbuffer, -⟩ := readSectors_answers
    (⟨rfl, rfl⟩ : (newDrive fun time => if time < 4 then .done else .failed).Ready)
    5 3 fun _ => 1
  exact ⟨m, hm, hbuffer⟩

structure Drive.Within (d : Drive) (Good : ByteStore → Prop) : Prop where
  disk : Good d.disk
  task : ∀ task, d.phase = .busy task → Good (d.finish task).disk

theorem Drive.Within.look
    {Good : ByteStore → Prop} (h : d.Within Good) : d.inbStatus.Within Good := by
  by_cases hsettled : d.Settled
  · rw [inbStatus_settled hsettled]
    exact h
  · obtain ⟨task, hphase⟩ := not_forall_not.1 hsettled
    have hend := h.task task hphase
    rcases inbStatus_cases hphase with
      ⟨hbusy, hkept⟩ | ⟨hidle, hkept⟩ | ⟨hlast, hdone⟩
    · refine ⟨hkept ▸ h.disk, fun other hother => ?_⟩
      rw [(finish_congr hkept other).2]
      exact h.task other (by rw [hphase, ← hbusy, hother])
    · refine ⟨hkept ▸ h.disk, fun other hother => ?_⟩
      rw [hidle] at hother
      cases hother
    · refine ⟨hdone ▸ hend, fun other hother => ?_⟩
      rw [hlast] at hother
      exact absurd hother (finish_settled d task other)

/-- The cache flush moves nothing. -/
theorem Drive.Within.flush
    {Good : ByteStore → Prop} (h : d.Within Good) :
    (d.outbCommand 0xE7).Within Good := by
  unfold Drive.outbCommand
  split
  next hphase =>
    exact ⟨h.disk, fun task hbusy => by
      cases hbusy
      exact h.disk⟩
  next => exact h

theorem Drive.Toward.within
    {disk next : ByteStore} {phase : Phase} {Good : ByteStore → Prop}
    (h : d.Toward task disk next phase)
    (hsettled : ∀ other, phase ≠ .busy other) (hdisk : Good disk)
    (hnext : Good next) : d.Within Good := by
  cases h with
  | working hphase hsame hend hlast =>
      refine ⟨hsame ▸ hdisk, fun other hother => ?_⟩
      rw [hphase] at hother
      cases hother
      exact hlast ▸ hnext
  | stopped hphase hsame =>
      refine ⟨hsame ▸ hdisk, fun other hother => ?_⟩
      rw [hphase] at hother
      cases hother
  | done hphase hsame =>
      exact ⟨hsame ▸ hnext, fun other hother =>
        absurd (hphase.symm.trans hother) (hsettled other)⟩

theorem writeLoop_answers
    {sectors lba : ℕ} {disk next : ByteStore} {phase : Phase}
    {Good : ByteStore → Prop} (source : ByteStore) (index : ℕ)
    (h : d.Toward task disk next phase)
    (hphase : left = 0 ∧ phase = .idle ∨
      0 < left ∧ phase = .taking lba left 0 fun _ => 0)
    (hdisk : Good disk)
    (hgood : ∀ m ≤ min sectors left,
      Good (next.blit (512 * lba) (source.drop (2 * index)) (512 * m))) :
    (writeLoop source sectors index d).2.Within Good := by
  induction sectors generalizing d task left lba disk next phase index with
  | zero =>
      have hnext : Good next := by
        have hzero := hgood 0 (Nat.zero_le _)
        rwa [blit_zero] at hzero
      exact h.within (asks_settled (fun other hbusy => by cases hbusy) hphase)
        hdisk hnext
  | succ sectors ih =>
      have hnext : Good next := by
        have hzero := hgood 0 (Nat.zero_le _)
        rwa [blit_zero] at hzero
      have hsettled := asks_settled (fun other hbusy => by cases hbusy) hphase
      obtain ⟨hkept, hasked⟩ := waitWrite_polls.keeps
        (fun e (he : e.Toward task disk next phase) => he.look hsettled) h patience
      unfold writeLoop
      generalize waitWrite patience d = waited at hkept hasked ⊢
      by_cases hwait : waited.1 = true
      · obtain ⟨hat, hsame⟩ := hkept.asking (hasked hwait)
        simp only [hwait, if_true]
        rcases hphase with ⟨-, hidle⟩ | ⟨hleft, htaking⟩
        · exact absurd (status_idle (hat.trans hidle)) (hasked hwait)
        · rw [htaking] at hat
          have hwords := @writeWords_eq waited.2 lba left 0 255 _ hat rfl index
            source
          have hstored : next.blit (512 * lba)
              (ByteStore.blit (fun _ => 0) (2 * 0) (source.drop (2 * index))
                (2 * (255 + 1))) 512 =
                next.blit (512 * lba) (source.drop (2 * index)) 512 := by
            refine blit_congr next fun k hk => ?_
            rw [blit_inside _ _ (Nat.zero_le k) (by omega)]
            rfl
          obtain ⟨last, phase', htoward, hleads⟩ : ∃ last phase',
              (writeWords source 256 index waited.2).Toward last next
                  (next.blit (512 * lba) (source.drop (2 * index)) 512) phase' ∧
                (left - 1 = 0 ∧ phase' = .idle ∨ 0 < left - 1 ∧
                  phase' = .taking (lba + 1) (left - 1) 0 fun _ => 0) := by
            rw [hwords, ← hstored, ← hsame]
            by_cases hlast : left = 1
            · exact ⟨_, .idle, .working rfl rfl (if_pos hlast) rfl,
                .inl ⟨by omega, rfl⟩⟩
            · exact ⟨_, .taking (lba + 1) (left - 1) 0 fun _ => 0,
                .working rfl rfl (if_neg hlast) rfl, .inr ⟨by omega, rfl⟩⟩
          refine ih (index + 256) htoward hleads hnext fun m hm => ?_
          have hjoin : (next.blit (512 * lba) (source.drop (2 * index)) 512).blit
              (512 * (lba + 1)) (source.drop (2 * (index + 256))) (512 * m) =
                next.blit (512 * lba) (source.drop (2 * index)) (512 * (m + 1)) :=
            blit_blit_drop next source (by ring) (by ring) (by ring)
          rw [hjoin]
          exact hgood (m + 1) (by omega)
      · simp only [if_neg hwait]
        exact hkept.within hsettled hdisk hnext

/-- Whatever a drive answers, a write stores leading sectors as a whole, and the
rest of the disk stays. -/
theorem writeSectors_answers
    (hready : d.Ready) (lba count : ℕ) (source : ByteStore) :
    ∃ m ≤ sectorsMoved count,
      (writeSectors lba count d source).disk =
        d.disk.blit (sectorBase lba) source (512 * m) := by
  have hmoved : sectorsMoved count = min count ((count + 255) % 256 + 1) := rfl
  have hidle : (select lba count d).phase = .idle := hready.phase
  have hdrop : source.drop (2 * 0) = source := by
    funext k
    simp
  unfold writeSectors
  split_ifs with hzero
  · exact ⟨0, Nat.zero_le _, (blit_zero _ _ _).symm⟩
  rw [waitForDisk_ready hready]
  simp only [if_true]
  rw [outbCommand_write hidle, select_lba, select_count]
  have hwithin := @writeLoop_answers
    { select lba count d with
      phase := .busy (.prepare (lba % 268435456) ((count + 255) % 256 + 1))
      error := false }
    (.prepare (lba % 268435456) ((count + 255) % 256 + 1))
    ((count + 255) % 256 + 1) count (lba % 268435456) d.disk d.disk _
    (fun disk => ∃ m ≤ sectorsMoved count,
      disk = d.disk.blit (sectorBase lba) source (512 * m))
    source 0 (.working rfl rfl rfl rfl) (.inr ⟨Nat.succ_pos _, rfl⟩)
    ⟨0, Nat.zero_le _, (blit_zero _ _ _).symm⟩
    (fun m hm => ⟨m, hmoved ▸ hm, by rw [hdrop]; rfl⟩)
  split_ifs
  · exact (@waitForDisk_keeps _ (fun e => e.Within _)
      (fun _ => Drive.Within.look) hwithin.flush).disk
  · exact hwithin.disk

theorem writeSectors_answers_failing :
    ∃ m ≤ 3, (writeSectors 5 3
      (newDrive fun time => if time < 4 then .done else .failed)
        fun _ => 1).disk =
          ByteStore.blit (fun _ => 0) 2560 (fun _ => 1) (512 * m) :=
  writeSectors_answers
    (⟨rfl, rfl⟩ : (newDrive fun time => if time < 4 then .done else .failed).Ready)
    5 3 fun _ => 1

end

end Ata

end ClOs
