import HanOS.Device.Term
import HanOS.Foundations.Ring

/-!
# The kernel log (`lib/klog.c`)

Each log keeps its last bytes in a ring and passes every byte to its terminal as it is
put.  When the terminals start, `klog_refresh` plays the ring back.
-/

namespace HanOS.Lib

open HanOS.Device HanOS.Foundations

def klogBufferSize : Nat := 65535 + 1

instance : NeZero klogBufferSize := ⟨by decide⟩

structure KlogInfo where
  buff : Fin klogBufferSize → UInt8
  start : Nat
  /-- `end`, the index behind the last byte. -/
  stop : Nat

/-- The two logs, with the calls of the terminal they have made. -/
structure Klog where
  info : KlogInfo
  cli : KlogInfo
  calls : List TermCall

/-- The log of a mode: `klog_cli` serves every mode but `TERM_MODE_INFO`. -/
def Klog.log (s : Klog) (mode : TermMode) : KlogInfo := if mode = .info then s.info else s.cli

def Klog.set (s : Klog) (mode : TermMode) (k : KlogInfo) : Klog :=
  if mode = .info then { s with info := k } else { s with cli := k }

/-- `klog_putch` on the ring; `none` is a write outside it. -/
def KlogInfo.put (k : KlogInfo) (c : UInt8) : Option KlogInfo :=
  if bound : k.stop < klogBufferSize then
    let stop := if k.stop + 1 ≥ klogBufferSize then 0 else k.stop + 1
    let start := if stop = k.start then k.start + 1 else k.start
    some {
      buff := Function.update k.buff ⟨k.stop, bound⟩ c
      start := if start ≥ klogBufferSize then 0 else start
      stop := stop }
  else none

def klogPutch (s : Klog) (mode : TermMode) (c : UInt8) : Option Klog := do
  let k ← (s.log mode).put c
  return { s.set mode k with calls := s.calls ++ [.putch mode c] }

/-- The `while (true)` loop of `klog_refresh`, with the bytes it hands to `term_putch`.  `none`
    is a read outside the ring, or a loop that runs on when `fuel` passes are over. -/
def KlogInfo.replay (k : KlogInfo) : Nat → Nat → Option (List UInt8)
  | 0, _ => none
  | fuel + 1, i =>
    let i := if i ≥ klogBufferSize then 0 else i
    if if k.stop ≥ k.start then i ≥ k.stop else i ≥ k.stop ∧ i < k.start then some []
    else if bound : i < klogBufferSize then do
      let rest ← replay k fuel (i + 1)
      return k.buff ⟨i, bound⟩ :: rest
    else none

/-- `klog_refresh`; `termMode` is what `term_get_mode` returns. -/
def klogRefresh (termMode : TermMode) (s : Klog) (mode : TermMode) : Option Klog :=
  if termMode = .unknown then do
    let k := s.log mode
    let bytes ← k.replay klogBufferSize k.start
    return { s with calls := s.calls ++ .clear mode :: bytes.map (.putch mode) ++ [.refresh mode] }
  else some { s with calls := s.calls ++ [.refresh mode] }

def KlogInfo.init : KlogInfo := ⟨fun _ => 0, 0, 0⟩

def Klog.init : Klog := ⟨.init, .init, []⟩

/-! ## The ring -/

/-- The ring holds the last of the bytes put into the log, one element staying free. -/
structure Holds (k : KlogInfo) (bytes : List UInt8) : Prop where
  start : k.start < klogBufferSize
  stop : Wraps klogBufferSize k.stop (k.start + min bytes.length (klogBufferSize - 1))
  bytes : window k.buff k.start (min bytes.length (klogBufferSize - 1)) =
    bytes.rtake (klogBufferSize - 1)

theorem Holds.init : Holds .init [] where
  start := by decide
  stop := ⟨by decide, .inl rfl⟩
  bytes := rfl

theorem Holds.put {k : KlogInfo} {bytes : List UInt8} (holds : Holds k bytes) (c : UInt8) :
    ∃ after, k.put c = some after ∧ Holds after (bytes ++ [c]) := by
  obtain ⟨start, stop, kept⟩ := holds
  have size : 1 < klogBufferSize := by decide
  have bound : k.stop < klogBufferSize := stop.1
  have next := stop.next (by omega)
  have write := @window_write _ _ _ _ k.buff k.start (min bytes.length (klogBufferSize - 1))
    (by omega) c
  rw [kept, stop.ofNat] at write
  rw [KlogInfo.put, dif_pos bound]
  refine ⟨_, rfl, ?_⟩
  generalize (if k.stop + 1 ≥ klogBufferSize then 0 else k.stop + 1) = stop' at next
  generalize Function.update k.buff ⟨k.stop, bound⟩ c = buff at write
  by_cases full : bytes.length < klogBufferSize - 1
  · -- the end does not reach the start
    have count : min (bytes ++ [c]).length (klogBufferSize - 1) = bytes.length + 1 := by
      rw [List.length_append, List.length_singleton]
      omega
    rw [min_eq_left (by omega)] at next write
    have behind : stop' ≠ k.start := by
      obtain ⟨_, place⟩ := next
      omega
    rw [if_neg behind, if_neg (by omega)]
    refine ⟨start, by rw [count]; exact next, ?_⟩
    rw [count, write, List.rtake, List.rtake, List.length_append, List.length_singleton,
      show bytes.length - (klogBufferSize - 1) = 0 by omega,
      show bytes.length + 1 - (klogBufferSize - 1) = 0 by omega, List.drop_zero, List.drop_zero]
  · -- the end reaches the start, and the oldest byte gives way
    have count : min (bytes ++ [c]).length (klogBufferSize - 1) = klogBufferSize - 1 := by
      rw [List.length_append, List.length_singleton]
      omega
    rw [min_eq_right (by omega)] at next write
    have reached : stop' = k.start := by
      obtain ⟨_, place⟩ := next
      omega
    have moved : Wraps klogBufferSize (if k.start + 1 ≥ klogBufferSize then 0 else k.start + 1)
        (k.start + 1) := Wraps.next ⟨start, .inl rfl⟩ (by omega)
    rw [if_pos reached]
    generalize (if k.start + 1 ≥ klogBufferSize then 0 else k.start + 1) = start' at moved
    refine ⟨moved.1, ?_, ?_⟩
    · obtain ⟨_, place⟩ := moved
      rw [count, reached]
      exact ⟨start, show k.start = start' + _ ∨ k.start + _ = start' + _ by omega⟩
    · rw [count, ← window_wrap _ moved]
      have shifted := window_cons buff k.start (klogBufferSize - 1)
      rw [write] at shifted
      have dropped := congrArg List.tail shifted
      rw [List.tail_cons] at dropped
      rw [← dropped, List.rtake, List.rtake, List.length_append, List.length_singleton,
        List.tail_append_of_ne_nil, List.tail_drop, List.drop_append_of_le_length (by omega),
        show bytes.length - (klogBufferSize - 1) + 1 = bytes.length + 1 - (klogBufferSize - 1) by
          omega]
      intro nil
      have length := congrArg List.length nil
      rw [List.length_drop, List.length_nil] at length
      omega

/-! ## The replay -/

/-- The loop, entered at the index of the position `count - rest` from the start. -/
theorem replay_window {k : KlogInfo} {count : Nat} (start : k.start < klogBufferSize)
    (stop : Wraps klogBufferSize k.stop (k.start + count)) (room : count < klogBufferSize)
    (rest : Nat) {position fuel i : Nat} (ahead : position + rest = k.start + count)
    (behind : k.start ≤ position) (enough : rest < fuel) (within : i ≤ klogBufferSize)
    (index : i = position ∨ i + klogBufferSize = position) :
    k.replay fuel i = some (window k.buff position rest) := by
  obtain ⟨_, place⟩ := stop
  induction rest generalizing position fuel i with
  | zero =>
    obtain ⟨fuel, rfl⟩ : ∃ more, fuel = more + 1 := ⟨fuel - 1, by omega⟩
    unfold KlogInfo.replay
    -- the index has reached the end of the ring
    have reached : (if i ≥ klogBufferSize then 0 else i) = k.stop := by
      split <;> omega
    rw [reached, if_pos]
    · rfl
    · split <;> omega
  | succ rest inductionHypothesis =>
    obtain ⟨fuel, rfl⟩ : ∃ more, fuel = more + 1 := ⟨fuel - 1, by omega⟩
    unfold KlogInfo.replay
    -- less than a full turn from the end, so neither of its tests stops the loop
    have here : Wraps klogBufferSize (if i ≥ klogBufferSize then 0 else i) position := by
      unfold Wraps
      split <;> omega
    generalize (if i ≥ klogBufferSize then 0 else i) = i' at here
    have slot := here.ofNat
    obtain ⟨bound, index'⟩ := here
    dsimp only
    rw [if_neg (by split <;> omega), dif_pos bound,
      @inductionHypothesis (position + 1) fuel (i' + 1) (by omega) (by omega) (by omega) bound
        (by omega), window_cons, slot]
    rfl

theorem Holds.replay {k : KlogInfo} {bytes : List UInt8} (holds : Holds k bytes) :
    k.replay klogBufferSize k.start = some (bytes.rtake (klogBufferSize - 1)) := by
  obtain ⟨start, stop, kept⟩ := holds
  have size : 1 < klogBufferSize := by decide
  rw [← kept]
  exact replay_window start stop (by omega) _ rfl (Nat.le_refl _) (by omega) (by omega) (.inl rfl)

/-! ## Both logs -/

def bytesOf (mode : TermMode) (puts : List (TermMode × UInt8)) : List UInt8 :=
  (puts.filter fun put => decide (put.1 = .info) = decide (mode = .info)).map Prod.snd

theorem bytesOf_snoc (mode other : TermMode) (puts : List (TermMode × UInt8)) (c : UInt8) :
    bytesOf mode (puts ++ [(other, c)]) =
      bytesOf mode puts ++ if decide (other = .info) = decide (mode = .info) then [c] else [] := by
  unfold bytesOf
  rw [List.filter_append, List.map_append]
  congr 1
  by_cases same : decide (other = .info) = decide (mode = .info)
  · rw [if_pos same]
    simp [same]
  · rw [if_neg same]
    simp [same]

theorem klogPutch_holds {s : Klog} {puts : List (TermMode × UInt8)}
    (holds : ∀ mode, Holds (s.log mode) (bytesOf mode puts)) (mode : TermMode) (c : UInt8) :
    ∃ after, klogPutch s mode c = some after ∧
      ∀ other, Holds (after.log other) (bytesOf other (puts ++ [(mode, c)])) := by
  obtain ⟨k, put, held⟩ := (holds mode).put c
  refine ⟨_, by rw [klogPutch, put]; rfl, ?_⟩
  intro other
  rw [bytesOf_snoc]
  have before := holds other
  -- every mode but `TERM_MODE_INFO` goes to the CLI's log
  by_cases same : decide (mode = .info) = decide (other = .info)
  · rw [if_pos same]
    have log : s.log mode = s.log other := by
      unfold Klog.log
      simp only [decide_eq_decide] at same
      simp only [same]
    have bytes : bytesOf mode puts = bytesOf other puts := by
      unfold bytesOf
      rw [same]
    rw [bytes] at held
    have set : ∀ calls, ({ s.set mode k with calls := calls } : Klog).log other = k := by
      intro calls
      simp only [decide_eq_decide] at same
      unfold Klog.log Klog.set
      by_cases info : mode = .info
      · simp [info, same.mp info]
      · simp [info, mt same.mpr info]
    rw [set]
    exact held
  · rw [if_neg same, List.append_nil]
    have set : ∀ calls, ({ s.set mode k with calls := calls } : Klog).log other = s.log other := by
      intro calls
      simp only [decide_eq_decide] at same
      unfold Klog.log Klog.set
      by_cases info : mode = .info <;> by_cases there : other = .info <;> simp_all
    rw [set]
    exact before

theorem klogPutch_run (puts : List (TermMode × UInt8)) :
    ∃ s, puts.foldlM (fun s put => klogPutch s put.1 put.2) .init = some s ∧
      ∀ mode, Holds (s.log mode) (bytesOf mode puts) := by
  induction puts using List.reverseRecOn with
  | nil =>
    refine ⟨.init, rfl, ?_⟩
    intro mode
    unfold Klog.log Klog.init
    split <;> exact .init
  | append_singleton puts put inductionHypothesis =>
    obtain ⟨s, ran, holds⟩ := inductionHypothesis
    obtain ⟨after, step, held⟩ := klogPutch_holds holds put.1 put.2
    refine ⟨after, ?_, held⟩
    rw [List.foldlM_append, ran]
    simpa using step

/-- After any sequence of bytes put into the logs, the replay ends and hands the terminal the
    last of those the log was given, as many as fit, in their order. -/
theorem klogRefresh_replay (puts : List (TermMode × UInt8)) (mode : TermMode) :
    ∃ s, puts.foldlM (fun s put => klogPutch s put.1 put.2) .init = some s ∧
      ∃ last, last <:+ bytesOf mode puts ∧
        last.length = min (bytesOf mode puts).length (klogBufferSize - 1) ∧
        klogRefresh .unknown s mode =
          some { s with calls := s.calls ++ .clear mode :: last.map (.putch mode) ++
            [.refresh mode] } := by
  obtain ⟨s, ran, holds⟩ := klogPutch_run puts
  refine ⟨s, ran, (bytesOf mode puts).rtake (klogBufferSize - 1), ?_, ?_, ?_⟩
  · rw [List.rtake]
    exact List.drop_suffix _ _
  · rw [List.rtake, List.length_drop]
    omega
  · simp only [klogRefresh, if_true, (holds mode).replay, Option.bind_eq_bind, Option.bind_some,
      Option.pure_def]

end HanOS.Lib
