import HanOS.Device.Ata

/-!
# Transfers of the ATA driver (`device/storage/ata.c`)

`Ready` is a channel that takes a command; `Pending` one whose drive works on something.  Each part of
the driver says what it makes of a pending channel, and a transfer is a chain of them: from ready to
ready, or to the panic of `ata_poll`.
-/

namespace HanOS.Device

open HanOS.Foundations

variable {c : AtaChannel} {media : Bool → AtaMedia} {slave : Bool} {work : AtaWork}
  {target source buffer : Mem} {addr lba todo word n : Nat}

/-! ## The channel -/

namespace AtaChannel

structure Ready (c : AtaChannel) : Prop where
  idle : ∃ error, c.phase = .idle error
  settle : c.settle ≤ 4

structure Pending (c : AtaChannel) (media : Bool → AtaMedia) (slave : Bool) (work : AtaWork) :
    Prop where
  media : c.media = media
  selected : c.selected = slave
  busy : ∃ left, c.phase = .busy left work
  settle : c.settle ≤ 4

def settled (c : AtaChannel) : AtaChannel := { c with settle := 0 }

@[simp] theorem settled_media : c.settled.media = c.media := rfl
@[simp] theorem settled_selected : c.settled.selected = c.selected := rfl
@[simp] theorem settled_settle : c.settled.settle = 0 := rfl
@[simp] theorem settled_medium : c.settled.medium = c.medium := rfl

theorem pending_start : (c.start work).Pending c.media c.selected work :=
  ⟨rfl, rfl, ⟨_, rfl⟩, le_rfl⟩

/-- What a busy drive goes on with does not depend on how long it was busy. -/
theorem resume_phase {phase : AtaPhase} : { c with phase }.resume work = c.resume work := by
  cases work <;> rfl

@[simp] theorem resume_settle : (c.resume work).settle = c.settle := by
  cases work with
  | store => rw [resume]; split <;> rfl
  | _ => rfl

theorem resume_free (left : Nat) (other : AtaWork) : (c.resume work).phase ≠ .busy left other := by
  cases work with
  | rest => simp [resume]
  | fetch lba todo =>
    rw [resume, askIn]
    cases c.medium.readFault lba <;> split_ifs <;> simp
  | accept => rw [resume, askOut]; split_ifs <;> simp
  | store =>
    rw [resume]
    split
    · simp
    · rw [askOut]; split_ifs <;> simp

theorem inb_altstatus : c.inb .altstatus = .ok (0xFF, c.tick) := if_pos rfl

theorem tick_now (now : c.settle = 0) : c.tick = c := by
  cases c
  cases now
  rfl

theorem settled_now (now : c.settle = 0) : c.settled = c := by
  cases c
  cases now
  rfl

theorem inb_command (now : c.settle = 0) : c.inb .command = .ok c.readStatus := by
  rw [inb, if_neg (by decide), if_neg (not_not.mpr now)]

theorem readStatus_free (free : ∀ left work, c.phase ≠ .busy left work) :
    c.readStatus = (c.phase.status, c) := by
  unfold readStatus
  split
  · next left work busy => exact absurd busy (free _ work)
  · next work busy => exact absurd busy (free 0 work)
  · rfl

end AtaChannel

theorem AtaPhase.status_free {phase : AtaPhase} (free : ∀ left work, phase ≠ .busy left work) :
    phase.status &&& ataSrBsy = 0 := by
  cases phase with
  | idle error =>
    cases error with
    | none => exact (by decide : (0x40 : UInt8) &&& 0x80 = 0)
    | some err => exact (by decide : (0x41 : UInt8) &&& 0x80 = 0)
  | busy left work => exact absurd rfl (free left work)
  | dataIn => exact (by decide : (0x48 : UInt8) &&& 0x80 = 0)
  | dataOut => exact (by decide : (0x48 : UInt8) &&& 0x80 = 0)

/-! ## Waiting -/

theorem ataIoWait_eq : ataIoWait c = .ok { c with settle := c.settle - 4 } := rfl

theorem ataIoWait_settled (few : c.settle ≤ 4) : ataIoWait c = .ok c.settled := by
  rw [ataIoWait_eq, AtaChannel.settled, Nat.sub_eq_zero_of_le few]

/-- The first loop ends with the busy time. -/
theorem pollBusy_done {left : Nat} (busy : c.phase = .busy left work) (now : c.settle = 0) :
    ∃ s after, c.inb .command = .ok (s, after) ∧
      ∀ fuel, left ≤ fuel → pollBusy fuel s after = .ok (c.resume work) := by
  induction left generalizing c with
  | zero =>
    have read : c.readStatus = ((c.resume work).phase.status, c.resume work) := by
      simp only [AtaChannel.readStatus, busy]
    refine ⟨_, _, by rw [AtaChannel.inb_command now, read], fun fuel _ => ?_⟩
    have shown := AtaPhase.status_free (@AtaChannel.resume_free c work)
    cases fuel <;> exact if_neg (not_not.mpr shown)
  | succ left inductionHypothesis =>
    let later : AtaChannel := { c with phase := .busy left work }
    have read : c.readStatus = (0x80, later) := by simp only [AtaChannel.readStatus, busy, later]
    obtain ⟨s, after, again, polled⟩ := @inductionHypothesis later rfl now
    refine ⟨0x80, later, by rw [AtaChannel.inb_command now, read], fun fuel enough => ?_⟩
    obtain ⟨fuel, rfl⟩ : ∃ k, fuel = k + 1 := ⟨fuel - 1, by omega⟩
    -- the access between two readings of the status finds a settled channel
    have still : later.tick = later := AtaChannel.tick_now now
    rw [pollBusy, if_pos (by decide), AtaChannel.inb_altstatus, still]
    show (later.inb .command >>= fun x => pollBusy fuel x.1 x.2) = _
    rw [again]
    exact (polled fuel (by omega)).trans (congrArg _ AtaChannel.resume_phase)

theorem ataPoll_pending {advancedCheck : Bool} {result : Except AtaStop AtaChannel}
    (pending : c.Pending media slave work)
    (after : Ends (fun fuel => if advancedCheck then pollData fuel (c.settled.resume work)
      else pure (c.settled.resume work)) result) :
    Ends (fun fuel => ataPoll fuel advancedCheck c) result := by
  obtain ⟨left, busy⟩ := pending.busy
  obtain ⟨s, read, found, polled⟩ := @pollBusy_done c.settled work left busy rfl
  exact .bind (.const (ataIoWait_settled pending.settle))
    (.bind (.const found) (.bind (.from left polled) after))

theorem ataPoll_plain (pending : c.Pending media slave work) :
    Ends (fun fuel => ataPoll fuel false c) (.ok (c.settled.resume work)) :=
  ataPoll_pending pending (.const rfl)

theorem pollData_asks (now : c.settle = 0) (asks : c.phase.status = 0x48) :
    Ends (fun fuel => pollData fuel c) (.ok c) := by
  refine .from 1 fun fuel enough => ?_
  obtain ⟨fuel, rfl⟩ : ∃ k, fuel = k + 1 := ⟨fuel - 1, by omega⟩
  have free : ∀ left work, c.phase ≠ .busy left work := by
    intro left work busy
    rw [busy] at asks
    exact absurd asks (by simp [AtaPhase.status])
  have read : c.inb .command = .ok (0x48, c) := by
    rw [AtaChannel.inb_command now, AtaChannel.readStatus_free free, asks]
  rw [pollData, AtaChannel.inb_altstatus, AtaChannel.tick_now now]
  show (c.inb .command >>= _) = _
  rw [read]
  rfl

/-- An error after the busy time ends in the panic. -/
theorem pollData_fails {err : UInt8} (now : c.settle = 0) (failed : c.phase = .idle (some err)) :
    Ends (fun fuel => pollData fuel c) (.error (.kpanic err c)) := by
  refine .from 1 fun fuel enough => ?_
  obtain ⟨fuel, rfl⟩ : ∃ k, fuel = k + 1 := ⟨fuel - 1, by omega⟩
  have read : c.inb .command = .ok (0x41, c) := by
    rw [AtaChannel.inb_command now, AtaChannel.readStatus_free (by simp [failed]), failed]
    rfl
  have reason : c.inb .error = .ok (err, c) := by
    simp [AtaChannel.inb, now, failed]
  have wait : ataIoWait c = .ok c := by
    rw [ataIoWait_settled (by omega), AtaChannel.settled_now now]
  have error : (0x41 : UInt8) &&& ataSrErr ≠ 0 ∨ (0x41 : UInt8) &&& ataSrDf ≠ 0 := .inl (by decide)
  simp only [pollData, AtaChannel.inb_altstatus, AtaChannel.tick_now now, read, wait, reason, bind,
    Except.bind, if_pos error]
  rfl

theorem ataPoll_asks (pending : c.Pending media slave work)
    (asks : (c.settled.resume work).phase.status = 0x48) :
    Ends (fun fuel => ataPoll fuel true c) (.ok (c.settled.resume work)) :=
  ataPoll_pending pending (pollData_asks AtaChannel.resume_settle asks)

theorem ataPoll_fails {err : UInt8} (pending : c.Pending media slave work)
    (failed : (c.settled.resume work).phase = .idle (some err)) :
    Ends (fun fuel => ataPoll fuel true c) (.error (.kpanic err (c.settled.resume work))) :=
  ataPoll_pending pending (pollData_fails AtaChannel.resume_settle failed)

/-! ## The words of a sector -/

theorem portInsw_words (now : c.settle = 0) (asks : c.phase = .dataIn lba todo word)
    (last : word + n = 256) (some_ : 0 < n) :
    portInsw c target addr n =
      .ok (blit target addr c.medium.data (lba * 512 + 2 * word) (2 * n),
        c.start (.fetch (lba + 1) (todo - 1))) := by
  induction n generalizing c target addr word with
  | zero => exact absurd some_ (lt_irrefl 0)
  | succ n inductionHypothesis =>
    have word_ : c.inw = .ok (loadLE c.medium.data (lba * 512 + 2 * word) 2,
        if word + 1 < 256 then { c with phase := .dataIn lba todo (word + 1) }
        else c.start (.fetch (lba + 1) (todo - 1))) := by
      simp only [AtaChannel.inw, now, asks]
    rw [portInsw, word_]
    show portInsw _ (storeLE target addr 2 _) (addr + 2) n = _
    rw [storeLE_loadLE]
    by_cases more : word + 1 < 256
    · rw [if_pos more, @inductionHypothesis { c with phase := .dataIn lba todo (word + 1) } _ _ _ now rfl
        (by omega) (by omega)]
      show Except.ok (blit _ _ c.medium.data _ _, c.start _) = _
      rw [show lba * 512 + 2 * (word + 1) = lba * 512 + 2 * word + 2 by omega, blit_append,
        show 2 + 2 * n = 2 * (n + 1) by omega]
    · obtain rfl : n = 0 := by omega
      rw [if_neg more]
      rfl

theorem portInsw_sector (now : c.settle = 0) (asks : c.phase = .dataIn lba todo 0) :
    portInsw c target addr 256 =
      .ok (blit target addr c.medium.data (lba * 512) 512, c.start (.fetch (lba + 1) (todo - 1))) := by
  have words := @portInsw_words c target addr lba todo 0 256 now asks (by simp) (by decide)
  simpa only [Nat.mul_zero, Nat.add_zero, Nat.reduceMul] using words

theorem writeWords_words (now : c.settle = 0) (asks : c.phase = .dataOut lba todo word buffer)
    (last : word + n = 256) (some_ : 0 < n) :
    writeWords c source addr n =
      .ok (c.start (.store lba (todo - 1) (blit buffer (2 * word) source addr (2 * n)))) := by
  induction n generalizing c buffer addr word with
  | zero => exact absurd some_ (lt_irrefl 0)
  | succ n inductionHypothesis =>
    have taken : c.outw (loadLE source addr 2) =
        .ok (if word + 1 < 256 then
            { c with phase := .dataOut lba todo (word + 1) (blit buffer (2 * word) source addr 2) }
          else c.start (.store lba (todo - 1) (blit buffer (2 * word) source addr 2))) := by
      simp only [AtaChannel.outw, now, asks, storeLE_loadLE]
    rw [writeWords, taken]
    show writeWords _ source (addr + 2) n = _
    by_cases more : word + 1 < 256
    · rw [if_pos more, @inductionHypothesis
        { c with phase := .dataOut lba todo (word + 1) (blit buffer (2 * word) source addr 2) } _ _ _
        now rfl (by omega) (by omega)]
      show Except.ok (c.start _) = _
      rw [show 2 * (word + 1) = 2 * word + 2 by omega, blit_append, show 2 + 2 * n = 2 * (n + 1) by omega]
    · obtain rfl : n = 0 := by omega
      rw [if_neg more]
      rfl

/-! ## The registers of a transfer -/

/-- `w` bits of a number, from bit `k` on. -/
theorem field_eq (a k w : Nat) : (a &&& (2 ^ w - 1) <<< k) >>> k = a / 2 ^ k % 2 ^ w := by
  rw [Nat.shiftRight_and_distrib, Nat.shiftLeft_shiftRight, Nat.and_two_pow_sub_one_eq_mod,
    Nat.shiftRight_eq_div_pow]

theorem masked_eq {sector mask shift : UInt32} {w k : Nat}
    (bits : mask.toNat = (2 ^ w - 1) <<< k) (places : shift.toNat % 32 = k) :
    ((sector &&& mask) >>> shift).toNat = sector.toNat / 2 ^ k % 2 ^ w := by
  rw [UInt32.toNat_shiftRight, UInt32.toNat_and, bits, places, field_eq]

theorem hddevsel_parts (slave : Bool) : ∀ high < 16,
    let byte := ((0xE0 : UInt32) ||| (if slave then 1 else 0 : UInt32) <<< 4 ||| UInt32.ofNat high).toUInt8
    decide (byte &&& 0x10 ≠ 0) = slave ∧ (byte &&& 0x0F).toNat = high := by
  cases slave <;> decide

/-- The registers together have the low 28 bits of the sector. -/
theorem ataSetup_ready (ready : c.Ready) (slave : Bool) (sector : UInt32) (sectorCount : UInt8) :
    ∃ after, ataSetup slave sector sectorCount c = .ok after ∧ after.settle = 0 ∧
      (∃ error, after.phase = .idle error) ∧ after.media = c.media ∧ after.selected = slave ∧
      after.lba = sector.toNat % 2 ^ 28 ∧ after.seccount0 = sectorCount := by
  obtain ⟨⟨error, idle⟩, few⟩ := ready
  have high : ((sector &&& 0x0f000000) >>> 24).toNat = sector.toNat / 2 ^ 24 % 2 ^ 4 :=
    @masked_eq sector 0x0f000000 24 4 24 (by decide) (by decide)
  have low : (sector &&& 0x000000ff).toUInt8.toNat = sector.toNat % 2 ^ 8 := by
    have byte := @masked_eq sector 0x000000ff 0 8 0 (by decide) (by decide)
    rw [UInt32.shiftRight_zero, pow_zero, Nat.div_one] at byte
    rw [UInt32.toNat_toUInt8, byte, Nat.mod_mod]
  have middle : ((sector &&& 0x0000ff00) >>> 8).toUInt8.toNat = sector.toNat / 2 ^ 8 % 2 ^ 8 := by
    rw [UInt32.toNat_toUInt8, @masked_eq sector 0x0000ff00 8 8 8 (by decide) (by decide), Nat.mod_mod]
  have upper : ((sector &&& 0x00ff0000) >>> 16).toUInt8.toNat = sector.toNat / 2 ^ 16 % 2 ^ 8 := by
    rw [UInt32.toNat_toUInt8, @masked_eq sector 0x00ff0000 16 8 16 (by decide) (by decide), Nat.mod_mod]
  have parts := hddevsel_parts slave ((sector &&& 0x0f000000) >>> 24).toNat (by omega)
  rw [UInt32.ofNat_toNat] at parts
  refine ⟨{ c with
    seccount0 := sectorCount
    lba0 := (sector &&& 0x000000ff).toUInt8
    lba1 := ((sector &&& 0x0000ff00) >>> 8).toUInt8
    lba2 := ((sector &&& 0x00ff0000) >>> 16).toUInt8
    hddevsel := ((0xE0 : UInt32) ||| (if slave then 1 else 0 : UInt32) <<< 4 |||
      (sector &&& 0x0f000000) >>> 24).toUInt8
    settle := 0 }, ?_, rfl, ⟨error, idle⟩, rfl, parts.1, ?_, rfl⟩
  · rw [ataSetup, ataIoWait_settled few]
    obtain ⟨_, _, _, _, _, _, _, _, _, _⟩ := c
    cases idle
    rfl
  · simp only [AtaChannel.lba, parts.2, high, low, middle, upper]
    omega

/-- A command is not taken while words are asked for. -/
theorem ataSetup_asks (few : c.settle ≤ 4) (asks : c.phase.status = 0x48) (slave : Bool)
    (sector : UInt32) (sectorCount : UInt8) :
    ataSetup slave sector sectorCount c = .error .undefined := by
  have refused : ∀ data, c.settled.outb .hddevsel data = .error .undefined := by
    intro data
    unfold AtaChannel.outb
    split
    · next error _ idle =>
      rw [show c.phase = .idle error from idle] at asks
      cases error with
      | none => exact absurd asks (by decide : (0x40 : UInt8) ≠ 0x48)
      | some err => exact absurd asks (by decide : (0x41 : UInt8) ≠ 0x48)
    · rfl
  rw [ataSetup, ataIoWait_settled few]
  show (c.settled.outb .hddevsel _ >>= _) = _
  rw [refused]
  rfl

theorem outb_read (now : c.settle = 0) (idle : ∃ error, c.phase = .idle error) :
    c.outb .command ataCmdReadPio = .ok (c.start (.fetch c.lba c.count)) := by
  obtain ⟨error, idle⟩ := idle
  simp only [AtaChannel.outb, now, idle, if_true]

theorem outb_write (now : c.settle = 0) (idle : ∃ error, c.phase = .idle error) :
    c.outb .command ataCmdWritePio = .ok (c.start (.accept c.lba c.count)) := by
  obtain ⟨error, idle⟩ := idle
  simp only [AtaChannel.outb, now, idle]
  rfl

theorem outb_flush (now : c.settle = 0) (idle : ∃ error, c.phase = .idle error) :
    c.outb .command ataCmdCacheFlush = .ok (c.start .rest) := by
  obtain ⟨error, idle⟩ := idle
  simp only [AtaChannel.outb, now, idle]
  rfl

/-! ## Reading -/

theorem readSectors_step (pending : c.Pending media slave (.fetch lba todo)) (some_ : todo ≠ 0)
    (good : (media slave).readFault lba = none) :
    ∃ after, after.Pending media slave (.fetch (lba + 1) (todo - 1)) ∧
      ∀ n result, Ends (fun fuel => readSectors fuel after
          (blit target addr (media slave).data (lba * 512) 512) (addr + 512) n) result →
        Ends (fun fuel => readSectors fuel c target addr (n + 1)) result := by
  obtain ⟨rfl, rfl, busy, few⟩ := pending
  let asked : AtaChannel := { c.settled with phase := .dataIn lba todo 0 }
  -- the busy time ends with the words of this sector
  have resumed : c.settled.resume (.fetch lba todo) = asked := by
    have asks : c.settled.askIn lba todo = .dataIn lba todo 0 := by
      rw [AtaChannel.askIn, if_neg some_]
      exact congrArg (Option.elim · _ _) good
    rw [AtaChannel.resume, asks]
  have polled := ataPoll_asks ⟨rfl, rfl, busy, few⟩ (by rw [resumed]; rfl)
  rw [resumed] at polled
  refine ⟨(asked.start (.fetch (lba + 1) (todo - 1))).settled, ⟨rfl, rfl, ⟨_, rfl⟩, Nat.zero_le _⟩,
    fun n result rest => ?_⟩
  exact .bind polled (.bind (.const (portInsw_sector rfl rfl))
    (.bind (.const (ataIoWait_settled le_rfl)) rest))

/-- A sector that cannot be read stops the loop. -/
theorem readSectors_stop {err : UInt8} (pending : c.Pending media slave (.fetch lba todo))
    (some_ : todo ≠ 0) (fault : (media slave).readFault lba = some err) :
    ∃ after, after.media = media ∧
      ∀ n, Ends (fun fuel => readSectors fuel c target addr (n + 1)) (.error (.kpanic err after)) := by
  obtain ⟨rfl, rfl, busy, few⟩ := pending
  have failed : (c.settled.resume (.fetch lba todo)).phase = .idle (some err) := by
    rw [AtaChannel.resume, AtaChannel.askIn, if_neg some_]
    exact congrArg (Option.elim · _ _) fault
  exact ⟨c.settled.resume (.fetch lba todo), rfl,
    fun _ => .stop (ataPoll_fails ⟨rfl, rfl, busy, few⟩ failed)⟩

def AtaMedia.firstFault (media : AtaMedia) (lba : Nat) : Nat → Option UInt8
  | 0 => none
  | n + 1 => (media.readFault lba).or (media.firstFault (lba + 1) n)

theorem readSectors_ends (pending : c.Pending media slave (.fetch lba todo)) (enough : n ≤ todo) :
    ∃ after : AtaChannel, after.media = media ∧
      ((media slave).firstFault lba n = none → after.Pending media slave (.fetch (lba + n) (todo - n))) ∧
      Ends (fun fuel => readSectors fuel c target addr n)
        (((media slave).firstFault lba n).elim
          (.ok (blit target addr (media slave).data (lba * 512) (n * 512), after))
          fun err => .error (.kpanic err after)) := by
  induction n generalizing c target addr lba todo with
  | zero =>
    refine ⟨c, pending.media, fun _ => pending, .const ?_⟩
    rw [blit_self fun _ _ _ => by omega]
    rfl
  | succ n inductionHypothesis =>
    rw [AtaMedia.firstFault]
    cases fault : (media slave).readFault lba with
    | some err =>
      obtain ⟨after, same, ends⟩ := readSectors_stop pending (by omega) fault
      exact ⟨after, same, by simp, ends n⟩
    | none =>
      obtain ⟨next, pending', rest⟩ := readSectors_step pending (by omega) fault
      obtain ⟨after, same, pending'', ends⟩ := inductionHypothesis pending' (by omega)
      refine ⟨after, same, ?_, ?_⟩
      · rwa [show lba + (n + 1) = lba + 1 + n by omega, show todo - (n + 1) = todo - 1 - n by omega]
      · have both := rest n _ ends
        rwa [show (lba + 1) * 512 = lba * 512 + 512 by omega, blit_append,
          show 512 + n * 512 = (n + 1) * 512 by omega] at both

/-- Sectors that are all there and good are read, and the channel takes the next command. -/
theorem ataPioRead28_good (ready : c.Ready) (slave : Bool) (sector : UInt32) {sectorCount : UInt8}
    (some_ : sectorCount ≠ 0)
    (good : (c.media slave).firstFault (sector.toNat % 2 ^ 28) sectorCount.toNat = none) :
    ∃ after : AtaChannel, after.media = c.media ∧ after.Ready ∧
      Ends (fun fuel => ataPioRead28 fuel slave sector sectorCount target addr c)
        (.ok (blit target addr (c.media slave).data (sector.toNat % 2 ^ 28 * 512)
          (sectorCount.toNat * 512), after)) := by
  obtain ⟨set, setup, now, idle, media, rfl, lba, count⟩ :=
    ataSetup_ready ready slave sector sectorCount
  have commanded := outb_read now idle
  have todo : set.count = sectorCount.toNat := by rw [AtaChannel.count, count, if_neg some_]
  rw [lba, todo] at commanded
  rw [← media] at good ⊢
  obtain ⟨done, same, pending, ends⟩ := @readSectors_ends _ _ _ target addr _ _ _
    (@AtaChannel.pending_start set (.fetch (sector.toNat % 2 ^ 28) sectorCount.toNat)) le_rfl
  rw [good] at ends pending
  -- all the sectors were fetched, so the drive is idle after the last busy time
  have last := ataPoll_plain (pending rfl)
  refine ⟨_, ?_, ⟨⟨none, ?_⟩, ?_⟩,
    .bind (.const setup) (.bind (.const commanded) (.bind ends (.bind last (.const rfl))))⟩
  · exact same
  · rw [Nat.sub_self]
    rfl
  · rw [AtaChannel.resume_settle]
    exact Nat.zero_le _

/-- `ata_pio_read28` from a channel that takes a command, with any busy times: it reads the sectors,
    and the channel takes the next command; or it panics with the error of the first sector that
    cannot be read.  The drives are as they were. -/
theorem ataPioRead28_ends (ready : c.Ready) (slave : Bool) (sector : UInt32) {sectorCount : UInt8}
    (some_ : sectorCount ≠ 0) :
    ∃ after : AtaChannel, after.media = c.media ∧
      ((c.media slave).firstFault (sector.toNat % 2 ^ 28) sectorCount.toNat = none → after.Ready) ∧
      Ends (fun fuel => ataPioRead28 fuel slave sector sectorCount target addr c)
        (((c.media slave).firstFault (sector.toNat % 2 ^ 28) sectorCount.toNat).elim
          (.ok (blit target addr (c.media slave).data (sector.toNat % 2 ^ 28 * 512)
            (sectorCount.toNat * 512), after))
          fun err => .error (.kpanic err after)) := by
  cases fault : (c.media slave).firstFault (sector.toNat % 2 ^ 28) sectorCount.toNat with
  | none =>
    obtain ⟨after, same, again, ends⟩ := ataPioRead28_good ready slave sector some_ fault
    exact ⟨after, same, fun _ => again, ends⟩
  | some err =>
    obtain ⟨set, setup, now, idle, media, rfl, lba, count⟩ :=
      ataSetup_ready ready slave sector sectorCount
    have commanded := outb_read now idle
    have todo : set.count = sectorCount.toNat := by rw [AtaChannel.count, count, if_neg some_]
    rw [lba, todo] at commanded
    rw [← media] at fault ⊢
    obtain ⟨done, same, _, ends⟩ := @readSectors_ends _ _ _ target addr _ _ _
      (@AtaChannel.pending_start set (.fetch (sector.toNat % 2 ^ 28) sectorCount.toNat)) le_rfl
    rw [fault] at ends
    exact ⟨done, same, by simp, .bind (.const setup) (.bind (.const commanded) (.stop ends))⟩

/-- Two drives, whose sector 2 is bad; the second one has the number of each sector in its bytes. -/
def twoDrives : AtaChannel where
  media slave := ⟨if slave then 8 else 4, fun lba => decide (lba = 2), fun x => BitVec.ofNat 8 (x / 512)⟩
  seccount0 := 0
  lba0 := 0
  lba1 := 0
  lba2 := 0
  hddevsel := 0xA0
  phase := .idle none
  settle := 0
  delays _ := 3
  waits := 0

theorem twoDrives_ready : twoDrives.Ready := ⟨⟨none, rfl⟩, Nat.zero_le _⟩

/-- Sectors 3 to 7 of the slave, and three sectors that begin before the bad one. -/
theorem ataPioRead28_ends_twoDrives :
    (∃ after, Ends (fun fuel => ataPioRead28 fuel true 3 5 (fun _ => 0) 100 twoDrives)
      (.ok (blit (fun _ => 0) 100 (twoDrives.media true).data (3 * 512) (5 * 512), after))) ∧
    ∃ after, Ends (fun fuel => ataPioRead28 fuel false 1 3 (fun _ => 0) 100 twoDrives)
      (.error (.kpanic ataErUnc after)) := by
  obtain ⟨after, _, _, reads⟩ := @ataPioRead28_ends _ (fun _ => 0) 100 twoDrives_ready true 3 5 (by decide)
  obtain ⟨after', _, _, fails⟩ := @ataPioRead28_ends _ (fun _ => 0) 100 twoDrives_ready false 1 3 (by decide)
  exact ⟨⟨after, reads⟩, after', fails⟩

/-! ## Writing -/

/-- The drives when `n` sectors of `source` are written. -/
def written (media : Bool → AtaMedia) (slave : Bool) (lba : Nat) (source : Mem) (addr n : Nat) :
    Bool → AtaMedia :=
  Function.update media slave
    { media slave with data := blit (media slave).data (lba * 512) source addr (n * 512) }

theorem written_zero : written media slave lba source addr 0 = media := by
  rw [written, blit_self fun _ _ _ => by omega]
  exact Function.update_eq_self slave media

theorem written_add {m : Nat} :
    written (written media slave lba source addr m) slave (lba + m) source (addr + m * 512) n =
      written media slave lba source addr (m + n) := by
  simp only [written, Function.update_self, Function.update_idem]
  rw [Nat.add_mul lba, blit_append, ← Nat.add_mul]

def sectorOf (source : Mem) (addr : Nat) : Mem := blit (fun _ => 0) 0 source addr 512

theorem store_sectorOf :
    Function.update media slave ((media slave).store lba (sectorOf source addr)) =
      written media slave lba source addr 1 := by
  rw [AtaMedia.store, sectorOf, blit_blit, written, Nat.one_mul]

/-- A drive whose work ends with asking for the words of a sector, and the drives then. -/
inductive Asking (media : Bool → AtaMedia) (slave : Bool) :
    AtaWork → (Bool → AtaMedia) → Nat → Nat → Prop
  | accept {lba todo : Nat} : Asking media slave (.accept lba todo) media lba todo
  | store {lba todo : Nat} {source : Mem} {addr : Nat} (good : (media slave).bad lba = false) :
      Asking media slave (.store lba todo (sectorOf source addr)) (written media slave lba source addr 1)
        (lba + 1) todo

variable {media' : Bool → AtaMedia}

theorem Asking.resume (asking : Asking media slave work media' lba todo)
    (pending : c.Pending media slave work) :
    c.settled.resume work = { c.settled with
      media := media'
      phase :=
        if todo = 0 then .idle none
        else if (media' slave).absent lba then .idle (some ataErIdnf)
        else .dataOut lba todo 0 fun _ => 0 } := by
  obtain ⟨rfl, rfl, _, _⟩ := pending
  cases asking with
  | accept => rfl
  | @store lba todo source addr good =>
    have same : (written c.media c.selected lba source addr 1 c.selected).absent (lba + 1) =
        (c.media c.selected).absent (lba + 1) := by
      rw [written, Function.update_self]
      rfl
    rw [AtaChannel.resume, if_neg (by rw [AtaChannel.settled_medium, AtaChannel.medium, good]; simp)]
    simp only [same]
    rw [← store_sectorOf]
    rfl

theorem writeSectors_step (pending : c.Pending media slave work)
    (asking : Asking media slave work media' lba todo) (some_ : todo ≠ 0)
    (present : (media' slave).absent lba = false) :
    ∃ after, after.Pending media' slave (.store lba (todo - 1) (sectorOf source addr)) ∧
      ∀ n result, Ends (fun fuel => writeSectors fuel after source (addr + 512) n) result →
        Ends (fun fuel => writeSectors fuel c source addr (n + 1)) result := by
  let asked : AtaChannel :=
    { c.settled with media := media', phase := .dataOut lba todo 0 fun _ => 0 }
  have resumed : c.settled.resume work = asked := by
    rw [asking.resume pending, if_neg some_, present]
    rfl
  have polled := ataPoll_asks pending (by rw [resumed]; rfl)
  rw [resumed] at polled
  have words := @writeWords_words asked source (fun _ => 0) addr lba todo 0 256 rfl rfl (by simp)
    (by decide)
  simp only [Nat.mul_zero, Nat.reduceMul] at words
  refine ⟨(asked.start (.store lba (todo - 1) (sectorOf source addr))).settled,
    ⟨rfl, pending.selected, ⟨_, rfl⟩, Nat.zero_le _⟩, fun n result rest => ?_⟩
  exact .bind polled (.bind (.const words) (.bind (.const (ataIoWait_settled le_rfl)) rest))

/-- A sector that the drive does not have stops the loop. -/
theorem writeSectors_absent (pending : c.Pending media slave work)
    (asking : Asking media slave work media' lba todo) (some_ : todo ≠ 0)
    (absent : (media' slave).absent lba = true) :
    ∃ after, after.media = media' ∧
      ∀ n, Ends (fun fuel => writeSectors fuel c source addr (n + 1)) (.error (.kpanic ataErIdnf after)) := by
  have resumed := asking.resume pending
  rw [if_neg some_, absent] at resumed
  refine ⟨c.settled.resume work, by rw [resumed], fun n => .stop (ataPoll_fails pending ?_)⟩
  rw [resumed]
  rfl

/-- The next sector is asked for when one could not be written. -/
theorem writeSectors_bad (pending : c.Pending media slave (.store lba todo buffer))
    (bad : (media slave).bad lba = true) :
    ∃ after, after.media = media ∧
      ∀ n, Ends (fun fuel => writeSectors fuel c source addr (n + 1)) (.error (.kpanic ataErUnc after)) := by
  obtain ⟨rfl, rfl, busy, few⟩ := pending
  have resumed : c.settled.resume (.store lba todo buffer) =
      { c.settled with phase := .idle (some ataErUnc) } := if_pos bad
  refine ⟨c.settled.resume (.store lba todo buffer), by rw [resumed]; rfl,
    fun n => .stop (ataPoll_fails ⟨rfl, rfl, busy, few⟩ ?_)⟩
  rw [resumed]

/-- The sector that ends the writing of `n` sectors, with its error.  A sector that cannot be written
    is an error only when the next one is asked for. -/
def AtaMedia.firstWriteFault (media : AtaMedia) (lba : Nat) : Nat → Option (Nat × UInt8)
  | 0 => none
  | n + 1 =>
    if media.absent lba then some (0, ataErIdnf)
    else if media.bad lba ∧ n ≠ 0 then some (0, ataErUnc)
    else (media.firstWriteFault (lba + 1) n).map fun fault => (fault.1 + 1, fault.2)

theorem firstWriteFault_written {first m : Nat} :
    (written media slave first source addr m slave).firstWriteFault lba n =
      (media slave).firstWriteFault lba n := by
  induction n generalizing lba with
  | zero => rfl
  | succ n inductionHypothesis =>
    have same : ((written media slave first source addr m) slave).absent lba = (media slave).absent lba ∧
        ((written media slave first source addr m) slave).bad lba = (media slave).bad lba := by
      rw [written, Function.update_self]
      exact ⟨rfl, rfl⟩
    rw [AtaMedia.firstWriteFault, AtaMedia.firstWriteFault, inductionHypothesis, same.1, same.2]

theorem writeSectors_ends (pending : c.Pending media slave work)
    (asking : Asking media slave work media' lba todo) (enough : n + 1 ≤ todo) :
    ∃ after : AtaChannel,
      ((media' slave).firstWriteFault lba (n + 1) = none →
        after.Pending (written media' slave lba source addr n) slave
          (.store (lba + n) (todo - n - 1) (sectorOf source (addr + n * 512)))) ∧
      (∀ fault, (media' slave).firstWriteFault lba (n + 1) = some fault →
        after.media = written media' slave lba source addr fault.1) ∧
      Ends (fun fuel => writeSectors fuel c source addr (n + 1))
        (((media' slave).firstWriteFault lba (n + 1)).elim (.ok after)
          fun fault => .error (.kpanic fault.2 after)) := by
  induction n generalizing c media work media' addr lba todo with
  | zero =>
    rw [AtaMedia.firstWriteFault]
    cases present : (media' slave).absent lba with
    | true =>
      obtain ⟨after, same, ends⟩ := writeSectors_absent pending asking (by omega) present
      refine ⟨after, by simp, ?_, ends 0⟩
      rintro fault ⟨⟩
      rw [written_zero, same]
    | false =>
      obtain ⟨after, pending', rest⟩ := @writeSectors_step c media slave work source addr lba todo
        media' pending asking (by omega) present
      refine ⟨after, fun _ => ?_, by simp [AtaMedia.firstWriteFault], ?_⟩
      · rwa [written_zero, Nat.add_zero, Nat.sub_zero, Nat.zero_mul, Nat.add_zero]
      · exact rest 0 _ (.const (by simp [AtaMedia.firstWriteFault]))
  | succ n inductionHypothesis =>
    rw [AtaMedia.firstWriteFault]
    cases present : (media' slave).absent lba with
    | true =>
      obtain ⟨after, same, ends⟩ := writeSectors_absent pending asking (by omega) present
      refine ⟨after, by simp, ?_, ends (n + 1)⟩
      rintro fault ⟨⟩
      rw [written_zero, same]
    | false =>
      obtain ⟨next, pending', rest⟩ := @writeSectors_step c media slave work source addr lba todo
        media' pending asking (by omega) present
      -- whether this sector could be stored shows when the next one is asked for
      cases good : (media' slave).bad lba with
      | true =>
        obtain ⟨after, same, ends⟩ := writeSectors_bad pending' good
        refine ⟨after, by simp, ?_, rest (n + 1) _ (ends n)⟩
        rintro fault ⟨⟩
        rw [written_zero, same]
      | false =>
        have asking' : Asking media' slave (.store lba (todo - 1) (sectorOf source addr))
            (written media' slave lba source addr 1) (lba + 1) (todo - 1) := .store good
        obtain ⟨after, pending'', failed, ends⟩ := @inductionHypothesis next media' _ (addr + 512)
          (lba + 1) (todo - 1) _ pending' asking' (by omega)
        have next_ : ∀ k, written (written media' slave lba source addr 1) slave (lba + 1) source
            (addr + 512) k = written media' slave lba source addr (1 + k) := fun k => by
          rw [← written_add, Nat.one_mul]
        rw [firstWriteFault_written] at pending'' failed ends
        rw [if_neg (by simp), if_neg (by simp)]
        refine ⟨after, fun none_ => ?_, fun fault found => ?_, ?_⟩
        · have done := pending'' (by simpa using none_)
          rwa [next_, Nat.add_comm 1 n, show lba + 1 + n = lba + (n + 1) by omega,
            show todo - 1 - n - 1 = todo - (n + 1) - 1 by omega,
            show addr + 512 + n * 512 = addr + (n + 1) * 512 by omega] at done
        · obtain ⟨first, found', rfl⟩ := Option.map_eq_some_iff.mp found
          rw [failed first found', next_, Nat.add_comm]
        · have both := rest (n + 1) _ ends
          cases first : (media' slave).firstWriteFault (lba + 1) (n + 1) with
          | none => rwa [first] at both
          | some fault => rwa [first] at both

/-- The last sector of a writing is stored while the driver waits, whether it can be or not. -/
theorem ataPoll_stored (pending : c.Pending (written media slave lba source addr n) slave
    (.store (lba + n) 0 (sectorOf source (addr + n * 512)))) :
    ∃ after : AtaChannel, Ends (fun fuel => ataPoll fuel false c) (.ok after) ∧ after.settle = 0 ∧
      (∃ error, after.phase = .idle error) ∧ after.media = written media slave lba source addr
        (if (media slave).bad (lba + n) then n else n + 1) := by
  have polled := ataPoll_plain pending
  obtain ⟨here, chosen, _, _⟩ := pending
  have medium : c.settled.medium = written media slave lba source addr n slave := by
    rw [AtaChannel.settled_medium, AtaChannel.medium, here, chosen]
  have same : c.settled.medium.bad (lba + n) = (media slave).bad (lba + n) := by
    rw [medium, written, Function.update_self]
  refine ⟨_, polled, AtaChannel.resume_settle, ?_⟩
  rw [AtaChannel.resume, same]
  cases (media slave).bad (lba + n) with
  -- the plain poll looks at the busy bit only
  | true => exact ⟨⟨some ataErUnc, rfl⟩, here⟩
  | false =>
    refine ⟨⟨none, rfl⟩, ?_⟩
    show Function.update c.settled.media c.settled.selected (c.settled.medium.store _ _) = _
    rw [medium, AtaChannel.settled_media, AtaChannel.settled_selected, here, chosen, store_sectorOf,
      written_add]
    rfl

/-- Where no sector before the last one fails, they are written, the last one if it is good, and the
    channel takes the next command. -/
theorem ataPioWrite28_good (ready : c.Ready) (slave : Bool) (sector : UInt32) {sectorCount : UInt8}
    (some_ : sectorCount ≠ 0)
    (good : (c.media slave).firstWriteFault (sector.toNat % 2 ^ 28) sectorCount.toNat = none) :
    ∃ after : AtaChannel, after.Ready ∧
      after.media = written c.media slave (sector.toNat % 2 ^ 28) source addr
        (if (c.media slave).bad (sector.toNat % 2 ^ 28 + (sectorCount.toNat - 1)) then
          sectorCount.toNat - 1 else sectorCount.toNat) ∧
      Ends (fun fuel => ataPioWrite28 fuel slave sector sectorCount source addr c) (.ok after) := by
  obtain ⟨set, setup, now, idle, media, rfl, lba, count⟩ :=
    ataSetup_ready ready slave sector sectorCount
  have commanded := outb_write now idle
  have todo : set.count = sectorCount.toNat := by rw [AtaChannel.count, count, if_neg some_]
  have positive : 0 < sectorCount.toNat :=
    Nat.pos_of_ne_zero fun zero => some_ (UInt8.toNat_inj.mp zero)
  obtain ⟨n, more⟩ : ∃ n, sectorCount.toNat = n + 1 := ⟨sectorCount.toNat - 1, by omega⟩
  rw [lba, todo] at commanded
  rw [← media] at good ⊢
  let started := (set.start (.accept (sector.toNat % 2 ^ 28) sectorCount.toNat)).settled
  obtain ⟨done, pending, _, ends⟩ := @writeSectors_ends started set.media set.selected _ source addr
    _ _ n set.media ⟨rfl, rfl, ⟨_, rfl⟩, Nat.zero_le _⟩ .accept more.ge
  rw [← more] at pending ends
  rw [good] at ends
  have pending := pending good
  rw [show sectorCount.toNat - n - 1 = 0 by omega] at pending
  obtain ⟨stored, polled, now', idle', data⟩ := ataPoll_stored pending
  have flushed := outb_flush now' idle'
  have last := ataPoll_plain (@AtaChannel.pending_start stored .rest)
  refine ⟨(stored.start .rest).settled.resume .rest, ⟨⟨none, rfl⟩, Nat.zero_le _⟩, ?_,
    .bind (.const setup) (.bind (.const commanded) (.bind (.const (ataIoWait_settled le_rfl))
      (.bind ends (.bind polled (.bind (.const flushed) last)))))⟩
  show stored.media = _
  rw [data, more, Nat.add_sub_cancel]

/-- `ata_pio_write28` from a channel that takes a command, with any busy times.  It panics with the
    error of the first sector that the drive does not have, or cannot write before another one, and
    the sectors before are written.  Otherwise the channel takes the next command and the sectors
    are written, but for the last one if that could not be: nobody looks at the error then. -/
theorem ataPioWrite28_ends (ready : c.Ready) (slave : Bool) (sector : UInt32) {sectorCount : UInt8}
    (some_ : sectorCount ≠ 0) :
    ∃ after : AtaChannel,
      ((c.media slave).firstWriteFault (sector.toNat % 2 ^ 28) sectorCount.toNat = none →
        after.Ready ∧ after.media = written c.media slave (sector.toNat % 2 ^ 28) source addr
          (if (c.media slave).bad (sector.toNat % 2 ^ 28 + (sectorCount.toNat - 1)) then
            sectorCount.toNat - 1 else sectorCount.toNat)) ∧
      (∀ fault, (c.media slave).firstWriteFault (sector.toNat % 2 ^ 28) sectorCount.toNat = some fault →
        after.media = written c.media slave (sector.toNat % 2 ^ 28) source addr fault.1) ∧
      Ends (fun fuel => ataPioWrite28 fuel slave sector sectorCount source addr c)
        (((c.media slave).firstWriteFault (sector.toNat % 2 ^ 28) sectorCount.toNat).elim (.ok after)
          fun fault => .error (.kpanic fault.2 after)) := by
  cases fault : (c.media slave).firstWriteFault (sector.toNat % 2 ^ 28) sectorCount.toNat with
  | none =>
    obtain ⟨after, again, data, ends⟩ := ataPioWrite28_good ready slave sector some_ fault
    exact ⟨after, fun _ => ⟨again, data⟩, by simp, ends⟩
  | some found =>
    obtain ⟨set, setup, now, idle, media, rfl, lba, count⟩ :=
      ataSetup_ready ready slave sector sectorCount
    have commanded := outb_write now idle
    have todo : set.count = sectorCount.toNat := by rw [AtaChannel.count, count, if_neg some_]
    have positive : 0 < sectorCount.toNat :=
      Nat.pos_of_ne_zero fun zero => some_ (UInt8.toNat_inj.mp zero)
    obtain ⟨n, more⟩ : ∃ n, sectorCount.toNat = n + 1 := ⟨sectorCount.toNat - 1, by omega⟩
    rw [lba, todo] at commanded
    rw [← media] at fault ⊢
    let started := (set.start (.accept (sector.toNat % 2 ^ 28) sectorCount.toNat)).settled
    obtain ⟨done, _, failed, ends⟩ := @writeSectors_ends started set.media set.selected _ source addr
      _ _ n set.media ⟨rfl, rfl, ⟨_, rfl⟩, Nat.zero_le _⟩ .accept more.ge
    rw [← more, fault] at failed ends
    exact ⟨done, by simp, failed, .bind (.const setup) (.bind (.const commanded)
      (.bind (.const (ataIoWait_settled le_rfl)) (.stop ends)))⟩

/-- Two sectors of the master, of which the bad one is lost in silence; and three, where it is not. -/
theorem ataPioWrite28_ends_twoDrives :
    (∃ after, after.Ready ∧ after.media = written twoDrives.media false 1 (fun _ => 7) 0 1 ∧
      Ends (fun fuel => ataPioWrite28 fuel false 1 2 (fun _ => 7) 0 twoDrives) (.ok after)) ∧
    ∃ after, after.media = written twoDrives.media false 1 (fun _ => 7) 0 1 ∧
      Ends (fun fuel => ataPioWrite28 fuel false 1 3 (fun _ => 7) 0 twoDrives)
        (.error (.kpanic ataErUnc after)) := by
  obtain ⟨after, done, _, writes⟩ :=
    @ataPioWrite28_ends _ (fun _ => 7) 0 twoDrives_ready false 1 2 (by decide)
  obtain ⟨after', _, failed, fails⟩ :=
    @ataPioWrite28_ends _ (fun _ => 7) 0 twoDrives_ready false 1 3 (by decide)
  exact ⟨⟨after, (done rfl).1, (done rfl).2, writes⟩, after', failed (1, ataErUnc) rfl, fails⟩

end HanOS.Device
