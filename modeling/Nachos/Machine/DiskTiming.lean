/-
  Nachos.Machine.DiskTiming

  How long a disk request takes (`machine/disk.cc`).  The disk computes the time of the
  interrupt from the number of the sector, the track of the last request and the time since
  which the track buffer is loaded.  The computation is compared with a platter that turns
  under a head: an interrupt comes when the sector has passed under the head, and for a read
  it is enough that it has passed since the head came to the track.
-/

import Nachos.Filesys.Disk
import Nachos.Lib.Rotation
import Nachos.Machine.Firing

namespace Nachos
namespace DiskTiming

open Rotation Transition

abbrev SECTORS_PER_TRACK : Nat := 32
abbrev ROTATION_TIME : Nat := 1000
abbrev SEEK_TIME : Nat := 1000

def nano_to_cycles (nano frequency : Nat) : Nat := nano * frequency / 1000

/-- The fields of `Disk` that the times depend on. -/
structure Disk where
  active : Bool
  lastSector : Nat
  bufferInit : Nat
deriving DecidableEq, Repr

section

variable (ProcessorFrequency : Nat) (d : Disk) (totalTicks : Nat)

/-- `Disk::TimeToSeek`: the time to the track, and from there to the next sector. -/
def timeToSeek (newSector : Nat) : Nat × Nat :=
  let newTrack := newSector / SECTORS_PER_TRACK
  let oldTrack := d.lastSector / SECTORS_PER_TRACK
  let seek := ((newTrack : Int) - oldTrack).natAbs * nano_to_cycles SEEK_TIME ProcessorFrequency
  let over' := (totalTicks + seek) % timeRange % nano_to_cycles ROTATION_TIME ProcessorFrequency
  (seek, if over' > 0 then nano_to_cycles ROTATION_TIME ProcessorFrequency - over' else 0)

/-- `Disk::ModuloDiff`. -/
def moduloDiff (sector current : Nat) : Nat :=
  let toOffset : Int := sector % SECTORS_PER_TRACK
  let fromOffset : Int := current % SECTORS_PER_TRACK
  (((toOffset - fromOffset) + SECTORS_PER_TRACK) % SECTORS_PER_TRACK).toNat

/-- `Disk::ComputeLatency`. -/
def computeLatency (newSector : Nat) (writing : Bool) : Nat :=
  let (seek, rotation) := timeToSeek ProcessorFrequency d totalTicks newSector
  let timeAfter := (totalTicks + seek + rotation) % timeRange
  let rot_time := nano_to_cycles ROTATION_TIME ProcessorFrequency
  -- the track buffer, with a difference of unsigned times
  if writing = false ∧ seek = 0 ∧
      (timeAfter + timeRange - d.bufferInit) % timeRange / rot_time >
        moduloDiff newSector (d.bufferInit / rot_time) then
    rot_time
  else
    seek + (rotation + moduloDiff newSector (timeAfter / rot_time) * rot_time) + rot_time

/-- `Disk::UpdateLast`. -/
def updateLast (newSector : Nat) : Disk :=
  let (seek, rotate) := timeToSeek ProcessorFrequency d totalTicks newSector
  { d with
    bufferInit := if seek ≠ 0 then (totalTicks + seek + rotate) % timeRange else d.bufferInit
    lastSector := newSector }

end

/-! ## The disk and the clock -/

structure State where
  clock : Clock
  disk : Disk
deriving DecidableEq, Repr

/-- `Disk::Disk`. -/
def initial : State := ⟨Clock.initial, ⟨false, 0, 0⟩⟩

inductive Event where
  /-- The time goes on. -/
  | tick (val : Nat)
  /-- Another device schedules an interrupt. -/
  | schedule (fromNow : Nat) (type : IntType)
  /-- `Interrupt::CheckIfDue`. -/
  | checkIfDue (advanceClock idle : Bool)
  /-- `Disk::ReadRequest` and `Disk::WriteRequest`. -/
  | request (sectorNumber : Int) (writing : Bool)

abbrev History := List (State × Event)

/-- One step; `none` when an `ASSERT` fails. -/
def step (ProcessorFrequency : Nat) (s : State) : Event → Option State
  | .tick val => some { s with clock := s.clock.incrTotalTicks val }
  | .schedule fromNow type =>
      if type = .disk then none else some { s with clock := s.clock.schedule fromNow type }
  | .checkIfDue advanceClock idle =>
      let (clock, fired) := s.clock.checkIfDue advanceClock idle
      -- `Disk::HandleInterrupt`
      if fired ∧ (s.clock.pending.head?.map fun e => e.type) = some .disk then
        some ⟨clock, { s.disk with active := false }⟩
      else some ⟨clock, s.disk⟩
  | .request sectorNumber writing =>
      if s.disk.active ∨ sectorNumber < 0 ∨ sectorNumber ≥ NUM_SECTORS then none else
        let now := s.clock.totalTicks
        let ticks := computeLatency ProcessorFrequency s.disk now sectorNumber.toNat writing
        some ⟨s.clock.schedule ticks .disk,
          { updateLast ProcessorFrequency s.disk now sectorNumber.toNat with active := true }⟩

/-! ## The head -/

/-- The track the head is over, or on its way to, and the time at which it comes there. -/
structure Head where
  track : Nat
  since : Nat

/-- The head moves one track in `SEEK_TIME`. -/
def Head.move (ProcessorFrequency : Nat) (h : Head) (now track : Nat) : Head :=
  if track = h.track then h else
    ⟨track, now + ((track : Int) - h.track).natAbs * nano_to_cycles SEEK_TIME ProcessorFrequency⟩

def Head.after (ProcessorFrequency : Nat) (h : Head) (s : State) : Event → Head
  | .request sectorNumber _ =>
      h.move ProcessorFrequency s.clock.totalTicks (sectorNumber.toNat / SECTORS_PER_TRACK)
  | _ => h

/-- Where a history of requests leaves the head, which starts over track 0. -/
def headAfter (ProcessorFrequency : Nat) (tr : History) : Head :=
  tr.foldl (fun h x => h.after ProcessorFrequency x.1 x.2) ⟨0, 0⟩

@[simp] theorem headAfter_snoc (f : Nat) (tr : History) (s : State) (a : Event) :
    headAfter f (tr ++ [(s, a)]) = (headAfter f tr).after f s a := by
  simp [headAfter]

/-! ## The latency of one request -/

section

variable {f : Nat}

/-- A sector and a track take the same time. -/
theorem cycles_eq (f : Nat) : nano_to_cycles ROTATION_TIME f = f := by
  simp [nano_to_cycles, ROTATION_TIME]

theorem moduloDiff_eq_gap (sector current : Nat) :
    moduloDiff sector current = gap SECTORS_PER_TRACK sector current := by
  simp only [moduloDiff, gap, SECTORS_PER_TRACK]
  omega

theorem moduloDiff_lt (sector current : Nat) : moduloDiff sector current < SECTORS_PER_TRACK := by
  rw [moduloDiff_eq_gap]
  exact gap_lt (by decide) sector current

/-- The number of tracks between two sectors. -/
def tracks (d : Disk) (newSector : Nat) : Nat :=
  ((newSector / SECTORS_PER_TRACK : Nat) - (d.lastSector / SECTORS_PER_TRACK : Nat) : Int).natAbs

/-- After the seek the time is rounded up to the next sector. -/
theorem timeToSeek_eq {d : Disk} {now newSector : Nat}
    (hwrap : now + tracks d newSector * f < timeRange) :
    timeToSeek f d now newSector = (tracks d newSector * f,
      roundUp f (now + tracks d newSector * f) - (now + tracks d newSector * f)) := by
  unfold timeToSeek roundUp
  rw [cycles_eq]
  dsimp only
  change (tracks d newSector * f, if (now + tracks d newSector * f) % timeRange % f > 0 then
    f - (now + tracks d newSector * f) % timeRange % f else 0) = _
  rw [Nat.mod_eq_of_lt hwrap]
  split
  · rw [Nat.add_sub_cancel_left]
  · rw [Nat.sub_self]

/-- `UpdateLast` keeps the track and the time since which the head is over it. -/
theorem updateLast_head {d : Disk} {h : Head} {now newSector : Nat} (hf : 0 < f)
    (hwrap : now + (tracks d newSector + 1) * f < timeRange)
    (htrack : d.lastSector / SECTORS_PER_TRACK = h.track)
    (hbuf : d.bufferInit = roundUp f h.since) :
    (updateLast f d now newSector).lastSector / SECTORS_PER_TRACK =
        (h.move f now (newSector / SECTORS_PER_TRACK)).track ∧
      (updateLast f d now newSector).bufferInit =
        roundUp f (h.move f now (newSector / SECTORS_PER_TRACK)).since := by
  rw [Nat.add_mul] at hwrap
  have hseek : now + tracks d newSector * f < timeRange := by omega
  have hle := le_roundUp f (now + tracks d newSector * f)
  have hlt := roundUp_lt hf (now + tracks d newSector * f)
  have hdist : tracks d newSector =
      ((newSector / SECTORS_PER_TRACK : Nat) - (h.track : Nat) : Int).natAbs := by
    rw [tracks, htrack]
  unfold updateLast Head.move
  rw [timeToSeek_eq hseek, cycles_eq]
  by_cases hsame : newSector / SECTORS_PER_TRACK = h.track
  · have hzero : tracks d newSector = 0 := by
      rw [hdist, hsame]
      simp
    simp [hsame, hzero, hbuf]
  · have hmoves : tracks d newSector * f ≠ 0 := by
      refine Nat.mul_ne_zero ?_ (by omega)
      rw [hdist]
      omega
    simp only [hsame, if_false, hmoves, ne_eq, not_false_eq_true, if_true, true_and]
    rw [← hdist, Nat.mod_eq_of_lt (by omega)]
    omega

/-- The latency when the track buffer does not help: the sector passes under the head. -/
theorem computeLatency_passes {d : Disk} {now newSector start : Nat} (writing : Bool) (hf : 0 < f)
    (hwrap : now + (tracks d newSector + 1) * f < timeRange)
    (hstart : start = now + tracks d newSector * f)
    (hmiss : ¬ (writing = false ∧ tracks d newSector * f = 0 ∧
      (roundUp f start + timeRange - d.bufferInit) % timeRange / f >
        moduloDiff newSector (d.bufferInit / f))) :
    now + computeLatency f d now newSector writing =
      roundUp f start + gap SECTORS_PER_TRACK newSector (roundUp f start / f) * f + f := by
  rw [Nat.add_mul] at hwrap
  have hle := le_roundUp f start
  have hlt := roundUp_lt hf start
  have hafter : (start + (roundUp f start - start)) % timeRange = roundUp f start := by
    rw [Nat.mod_eq_of_lt (by omega)]
    omega
  unfold computeLatency
  rw [timeToSeek_eq (by omega), cycles_eq, ← hstart]
  dsimp only
  rw [← hstart, hafter, if_neg hmiss, moduloDiff_eq_gap]
  omega

/-- The track buffer helps when the sector has passed since the buffer is loaded. -/
theorem buffered_iff {buffer now : Nat} (newSector : Nat) (hf : 0 < f) (hbuf : f ∣ buffer)
    (hnow : buffer ≤ now) (hwrap : now + f < timeRange) :
    (roundUp f now + timeRange - buffer) % timeRange / f > moduloDiff newSector (buffer / f) ↔
      buffer + gap SECTORS_PER_TRACK newSector (buffer / f) * f + f ≤ roundUp f now := by
  have hle := le_roundUp f now
  have hlt := roundUp_lt hf now
  obtain ⟨k, hk⟩ := dvd_roundUp hf now
  obtain ⟨b, rfl⟩ := hbuf
  have hdiff : (roundUp f now + timeRange - f * b) % timeRange = f * (k - b) := by
    have hsplit : roundUp f now + timeRange - f * b = f * (k - b) + timeRange := by
      rw [Nat.mul_sub, ← hk]
      omega
    rw [hsplit, Nat.add_mod_right, Nat.mod_eq_of_lt]
    rw [Nat.mul_sub, ← hk]
    omega
  rw [hdiff, Nat.mul_div_cancel_left _ hf, Nat.mul_div_cancel_left _ hf, moduloDiff_eq_gap, hk]
  have hsum : ∀ g, f * b + g * f + f = f * (b + g + 1) := by
    intro g
    ring
  rw [hsum, Nat.mul_le_mul_left_iff hf]
  omega

theorem computeLatency_buffered {d : Disk} {now newSector : Nat} (hzero : tracks d newSector = 0)
    (hwrap : roundUp f now < timeRange)
    (hhit : (roundUp f now + timeRange - d.bufferInit) % timeRange / f >
      moduloDiff newSector (d.bufferInit / f)) :
    computeLatency f d now newSector false = f := by
  have hle := le_roundUp f now
  have hseek : now + tracks d newSector * f < timeRange := by
    rw [hzero]
    omega
  unfold computeLatency
  rw [timeToSeek_eq hseek, cycles_eq]
  simp only [hzero, Nat.zero_mul, Nat.add_zero]
  rw [Nat.add_sub_cancel' hle, Nat.mod_eq_of_lt hwrap]
  exact if_pos ⟨trivial, trivial, hhit⟩

/-- A request is done when its sector has passed, but not within the time of one sector.  A
    read counts what passes since the head is over the track, a write what passes from now
    on. -/
theorem computeLatency_isLeast {d : Disk} {h : Head} {now newSector : Nat} (writing : Bool)
    (hf : 0 < f) (hwrap : now + (tracks d newSector + 1) * f < timeRange)
    (htrack : d.lastSector / SECTORS_PER_TRACK = h.track) (hbuf : d.bufferInit = roundUp f h.since)
    (hnow : d.bufferInit ≤ now) :
    ∃ e, IsLeast {c | Passed SECTORS_PER_TRACK f newSector
          (let arrived := (h.move f now (newSector / SECTORS_PER_TRACK)).since
            if writing then max now arrived else arrived) c} e ∧
      now + computeLatency f d now newSector writing = max (now + f) e := by
  have hsince := le_roundUp f h.since
  by_cases hsame : newSector / SECTORS_PER_TRACK = h.track
  · have hzero : tracks d newSector = 0 := by
      rw [tracks, htrack, hsame]
      simp
    have hmove : h.move f now (newSector / SECTORS_PER_TRACK) = h := by simp [Head.move, hsame]
    have hstart : now = now + tracks d newSector * f := by rw [hzero, Nat.zero_mul, Nat.add_zero]
    have hround := roundUp_lt hf now
    have hlast := passed_isLeast (n := SECTORS_PER_TRACK) (by decide) hf newSector now
    have hfirst := passed_isLeast (n := SECTORS_PER_TRACK) (by decide) hf newSector h.since
    rw [hmove]
    cases writing with
    | true =>
        have hmax : max now h.since = now := by omega
        refine ⟨_, by simpa [hmax] using hlast, ?_⟩
        rw [computeLatency_passes true hf hwrap hstart (by simp)]
        have hpass := hlast.1.add_le
        omega
    | false =>
        refine ⟨_, by simpa using hfirst, ?_⟩
        rw [hzero, Nat.zero_add, Nat.one_mul] at hwrap
        have hiff := buffered_iff newSector hf
          (hbuf ▸ dvd_roundUp hf h.since) hnow hwrap
        rw [← hbuf]
        by_cases hhit : d.bufferInit + gap SECTORS_PER_TRACK newSector (d.bufferInit / f) * f + f ≤
            roundUp f now
        · rw [computeLatency_buffered hzero (by omega) (hiff.mpr hhit)]
          omega
        · -- it has not passed by the next boundary, so it has to pass from now on
          have hmiss := computeLatency_passes false hf
            (by rw [hzero]; omega) hstart (fun hc => hhit (hiff.mp hc.2.2))
          rw [← hbuf] at hfirst
          have hle := hlast.2 (hfirst.1.later hf (by omega))
          have hge := hfirst.2 (hlast.1.mono (by omega))
          have hpass := hlast.1.add_le
          rw [hmiss]
          omega
  · -- the head has to go to the track first
    have hmoves : tracks d newSector * f ≠ 0 := by
      refine Nat.mul_ne_zero ?_ (by omega)
      rw [tracks, htrack]
      omega
    have harrived : (h.move f now (newSector / SECTORS_PER_TRACK)).since =
        now + tracks d newSector * f := by
      rw [Head.move, if_neg hsame, tracks, htrack]
      simp only [SEEK_TIME]
      rw [cycles_eq]
    have hstart : (if writing then max now (now + tracks d newSector * f)
        else now + tracks d newSector * f) = now + tracks d newSector * f := by
      split <;> omega
    have hpass := passed_isLeast (n := SECTORS_PER_TRACK) (by decide) hf newSector
      (now + tracks d newSector * f)
    refine ⟨_, by simpa only [harrived, hstart] using hpass, ?_⟩
    rw [computeLatency_passes writing hf hwrap rfl (fun hc => hmoves hc.2.1)]
    have hadd := hpass.1.add_le
    omega

theorem computeLatency_bounds {d : Disk} {now newSector : Nat} (writing : Bool) (hf : 0 < f)
    (hwrap : now + (tracks d newSector + 1) * f < timeRange) :
    f ≤ computeLatency f d now newSector writing ∧
      computeLatency f d now newSector writing < (tracks d newSector + 33) * f := by
  rw [Nat.add_mul] at hwrap
  have hround := roundUp_lt hf (now + tracks d newSector * f)
  have hsum : (tracks d newSector + 33) * f = tracks d newSector * f + 33 * f := Nat.add_mul _ _ _
  unfold computeLatency
  rw [timeToSeek_eq (by omega), cycles_eq]
  dsimp only
  split
  · omega
  · have hgap : ∀ x, moduloDiff newSector x * f ≤ 31 * f := fun x =>
      Nat.mul_le_mul_right f (Nat.lt_succ_iff.mp (moduloDiff_lt newSector x))
    have hx := hgap ((now + tracks d newSector * f + (roundUp f (now + tracks d newSector * f) -
      (now + tracks d newSector * f))) % timeRange / f)
    omega

end

/-! ## Over whole runs -/

/-- The clock does not run over in a step. -/
def NoWrap (f : Nat) (s : State) : Event → Prop
  | .tick val => s.clock.totalTicks + val < timeRange
  | .request _ _ => s.clock.totalTicks + 96 * f < timeRange
  | _ => True

/-- The time at which a request is to be done. -/
def doneAt (f : Nat) (s : State) (sectorNumber : Int) (writing : Bool) : Nat :=
  s.clock.totalTicks + computeLatency f s.disk s.clock.totalTicks sectorNumber.toNat writing

/-- The requests of a history, and the loading of the buffer, are over at time `t`. -/
structure Over (f : Nat) (tr : History) (s : State) (t : Nat) : Prop where
  done : ∀ x ∈ tr, ∀ sectorNumber writing, x.2 = .request sectorNumber writing →
    doneAt f x.1 sectorNumber writing ≤ t
  loaded : s.disk.bufferInit ≤ t

theorem Over.mono {f : Nat} {tr : History} {s : State} {t t' : Nat} (h : Over f tr s t)
    (hle : t ≤ t') : Over f tr s t' :=
  ⟨fun x hx n w hn => (h.done x hx n w hn).trans hle, h.loaded.trans hle⟩

/-- A step that is no request adds none. -/
theorem Over.other {f : Nat} {tr : History} {s s' : State} {a : Event} {t : Nat}
    (h : Over f tr s t) (ha : ∀ n w, a ≠ .request n w)
    (hdisk : s'.disk.bufferInit = s.disk.bufferInit) : Over f (tr ++ [(s, a)]) s' t := by
  refine ⟨fun x hx n w hn => ?_, hdisk ▸ h.loaded⟩
  rcases List.mem_append.mp hx with hx | hx
  · exact h.done x hx n w hn
  · obtain rfl := List.mem_singleton.mp hx
    exact absurd hn (ha n w)

def isDisk (e : PendingInterrupt) : Bool := e.type == .disk

/-- The disk's interrupt is pending exactly while a request is under way. -/
structure Timed (f : Nat) (tr : History) (s : State) : Prop where
  range : s.disk.lastSector < NUM_SECTORS
  track : s.disk.lastSector / SECTORS_PER_TRACK = (headAfter f tr).track
  buffer : s.disk.bufferInit = roundUp f (headAfter f tr).since
  pending : s.clock.pending.countP isDisk = if s.disk.active then 1 else 0
  due : ∀ e ∈ s.clock.pending, isDisk e = true → Over f tr s e.when
  idle : s.disk.active = false → Over f tr s s.clock.totalTicks

theorem tracks_le {d : Disk} {newSector : Nat} (hd : d.lastSector < NUM_SECTORS)
    (hn : newSector < NUM_SECTORS) : tracks d newSector ≤ 63 := by
  simp only [tracks, SECTORS_PER_TRACK, NUM_SECTORS] at *
  omega

theorem timed_initial (f : Nat) : Timed f [] initial where
  range := by decide
  track := rfl
  buffer := by simp [initial, headAfter, roundUp]
  pending := rfl
  due e he := by cases he
  idle _ := ⟨fun x hx => absurd hx (List.not_mem_nil), Nat.le_refl _⟩

theorem countP_sortedInsert (e : PendingInterrupt) (l : List PendingInterrupt) :
    (sortedInsert e l).countP isDisk = (e :: l).countP isDisk :=
  (sortedInsert_perm e l).countP_eq isDisk

/-- `CheckIfDue` ends a request exactly when it fires the disk's interrupt. -/
theorem Timed.checkIfDue {f : Nat} {tr : History} {s s' : State} {advanceClock idle : Bool}
    (h : Timed f tr s) (hs : step f s (.checkIfDue advanceClock idle) = some s') :
    Timed f (tr ++ [(s, .checkIfDue advanceClock idle)]) s' := by
  have hne : ∀ n w, Event.checkIfDue advanceClock idle ≠ .request n w := by
    intro n w
    simp
  have hhead : headAfter f (tr ++ [(s, .checkIfDue advanceClock idle)]) = headAfter f tr := by
    simp [Head.after]
  have hcases := Clock.checkIfDue_cases s.clock advanceClock idle
  simp only [step] at hs
  generalize s.clock.checkIfDue advanceClock idle = r at hs hcases
  cases hcases with
  | none hnil =>
      obtain rfl : s = s' := by simpa using hs
      exact ⟨h.range, hhead ▸ h.track, hhead ▸ h.buffer, h.pending,
        fun e he hd => (h.due e he hd).other hne rfl, fun hi => (h.idle hi).other hne rfl⟩
  | @putBack e rest now hpending hnow =>
      obtain rfl := Option.some.inj (by simpa using hs)
      refine ⟨h.range, hhead ▸ h.track, hhead ▸ h.buffer, ?_, fun x hx hd => ?_, fun hi => ?_⟩
      · show (sortedInsert e rest).countP isDisk = _
        rw [countP_sortedInsert, ← hpending]
        exact h.pending
      · have hmem : x ∈ s.clock.pending := by
          rw [hpending]
          exact List.mem_cons.mpr (mem_sortedInsert.mp hx)
        exact (h.due x hmem hd).other hne rfl
      · exact ((h.idle hi).mono hnow).other hne rfl
  | @fire e rest now hpending hnow hdue =>
      have hcount := h.pending
      rw [hpending, List.countP_cons] at hcount
      by_cases hdisk : isDisk e = true
      · -- the request is done: there was one, and its interrupt is gone
        have htype : e.type = .disk := by simpa [isDisk] using hdisk
        have hactive : s.disk.active = true := by
          by_contra hno
          simp [hdisk, hno] at hcount
        rw [hpending] at hs
        obtain rfl := Option.some.inj (by simpa [htype] using hs)
        refine ⟨h.range, hhead ▸ h.track, hhead ▸ h.buffer, ?_, fun x hx hd => ?_, fun _ => ?_⟩
        · show rest.countP isDisk = 0
          simp only [hdisk, hactive, if_true] at hcount
          omega
        · have hmem : x ∈ s.clock.pending := hpending ▸ List.mem_cons_of_mem e hx
          exact (h.due x hmem hd).other hne rfl
        · have hmem : e ∈ s.clock.pending := hpending ▸ List.mem_cons_self
          exact ((h.due e hmem hdisk).mono hdue).other hne rfl
      · have htype : e.type ≠ .disk := by simpa [isDisk] using hdisk
        rw [hpending] at hs
        obtain rfl := Option.some.inj (by simpa [htype] using hs)
        refine ⟨h.range, hhead ▸ h.track, hhead ▸ h.buffer, ?_, fun x hx hd => ?_, fun hi => ?_⟩
        · show rest.countP isDisk = _
          simpa [hdisk] using hcount
        · have hmem : x ∈ s.clock.pending := hpending ▸ List.mem_cons_of_mem e hx
          exact (h.due x hmem hd).other hne rfl
        · exact ((h.idle hi).mono hnow).other hne rfl

/-- A request that the disk takes: it is idle, the sector is one of the disk, and the clock has
    room for the time it takes. -/
theorem Timed.admits {f : Nat} {tr : History} {s s' : State} {sectorNumber : Int} {writing : Bool}
    (h : Timed f tr s) (hno : NoWrap f s (.request sectorNumber writing))
    (hs : step f s (.request sectorNumber writing) = some s') :
    s.disk.active = false ∧ sectorNumber.toNat < NUM_SECTORS ∧
      s.clock.totalTicks + (tracks s.disk sectorNumber.toNat + 1) * f < timeRange ∧
      (tracks s.disk sectorNumber.toNat + 33) * f ≤ 96 * f ∧
      s' = ⟨s.clock.schedule (computeLatency f s.disk s.clock.totalTicks sectorNumber.toNat writing)
          .disk,
        { updateLast f s.disk s.clock.totalTicks sectorNumber.toNat with active := true }⟩ := by
  simp only [step] at hs
  split at hs
  · cases hs
  · rename_i hok
    simp only [not_or] at hok
    obtain ⟨hactive, hneg, hbig⟩ := hok
    have hsector : sectorNumber.toNat < NUM_SECTORS := by omega
    have htracks := tracks_le h.range hsector
    have hroom : s.clock.totalTicks + 96 * f < timeRange := hno
    have hone : (tracks s.disk sectorNumber.toNat + 1) * f ≤ 96 * f :=
      Nat.mul_le_mul_right f (by omega)
    exact ⟨by simpa using hactive, hsector, by omega, Nat.mul_le_mul_right f (by omega),
      (Option.some.inj hs).symm⟩

theorem Timed.request {f : Nat} {tr : History} {s s' : State} {sectorNumber : Int}
    {writing : Bool} (hf : 0 < f) (h : Timed f tr s)
    (hno : NoWrap f s (.request sectorNumber writing))
    (hs : step f s (.request sectorNumber writing) = some s') :
    Timed f (tr ++ [(s, .request sectorNumber writing)]) s' := by
  obtain ⟨hidle, hsector, hwrap, hmul, rfl⟩ := h.admits hno hs
  have hover := h.idle hidle
  have hroom : s.clock.totalTicks + 96 * f < timeRange := hno
  obtain ⟨hmin, hmax⟩ := computeLatency_bounds writing hf hwrap
  obtain ⟨e, he, hlatency⟩ :=
    computeLatency_isLeast writing hf hwrap h.track h.buffer hover.loaded
  obtain ⟨htrack, hbuffer⟩ := updateLast_head hf hwrap h.track h.buffer
  have hwhen : (s.clock.totalTicks + computeLatency f s.disk s.clock.totalTicks
      sectorNumber.toNat writing) % timeRange = doneAt f s sectorNumber writing :=
    Nat.mod_eq_of_lt (by omega)
  have hhead : headAfter f (tr ++ [(s, .request sectorNumber writing)]) =
      (headAfter f tr).move f s.clock.totalTicks (sectorNumber.toNat / SECTORS_PER_TRACK) := by
    rw [headAfter_snoc]
    rfl
  refine ⟨hsector, hhead ▸ htrack, hhead ▸ hbuffer, ?_, fun x hx hd => ?_, fun hi => ?_⟩
  · show (sortedInsert _ s.clock.pending).countP isDisk = 1
    have hzero := h.pending
    rw [hidle] at hzero
    rw [countP_sortedInsert, List.countP_cons, hzero]
    rfl
  · have hx : x ∈ sortedInsert _ s.clock.pending := hx
    rcases mem_sortedInsert.mp hx with rfl | hmem
    · show Over f _ _ ((s.clock.totalTicks + _) % timeRange)
      rw [hwhen]
      refine ⟨fun y hy n w hreq => ?_, ?_⟩
      · rcases List.mem_append.mp hy with hy | hy
        · have hbefore := hover.done y hy n w hreq
          exact hbefore.trans (Nat.le_add_right _ _)
        · obtain rfl := List.mem_singleton.mp hy
          obtain ⟨rfl, rfl⟩ : sectorNumber = n ∧ writing = w := by simpa using hreq
          exact Nat.le_refl _
      · -- the buffer is loaded before the sector has passed
        show (updateLast f s.disk s.clock.totalTicks sectorNumber.toNat).bufferInit ≤ _
        obtain ⟨m, -, hstart, rfl⟩ := he.1
        have hround : roundUp f ((headAfter f tr).move f s.clock.totalTicks
            (sectorNumber.toNat / SECTORS_PER_TRACK)).since ≤ f * m := by
          refine roundUp_le hf (Nat.le_trans ?_ hstart) (Nat.dvd_mul_right f m)
          dsimp only
          split <;> omega
        rw [hbuffer, doneAt, hlatency]
        rw [Nat.mul_add]
        omega
    · have hzero := h.pending
      rw [hidle] at hzero
      exact absurd hd (List.countP_eq_zero.mp hzero x hmem)
  · cases hi

theorem Timed.step {f : Nat} {tr : History} {s s' : State} {a : Event} (hf : 0 < f)
    (h : Timed f tr s) (hno : NoWrap f s a) (hs : step f s a = some s') :
    Timed f (tr ++ [(s, a)]) s' := by
  cases a with
  | checkIfDue advanceClock idle => exact h.checkIfDue hs
  | tick val =>
      obtain rfl := Option.some.inj hs
      have hne : ∀ n w, Event.tick val ≠ .request n w := by simp
      have hhead : headAfter f (tr ++ [(s, .tick val)]) = headAfter f tr := by simp [Head.after]
      have hle : s.clock.totalTicks ≤ (s.clock.incrTotalTicks val).totalTicks := by
        have hlt : s.clock.totalTicks + val < timeRange := hno
        show s.clock.totalTicks ≤ (s.clock.totalTicks + val) % timeRange
        rw [Nat.mod_eq_of_lt hlt]
        omega
      exact ⟨h.range, hhead ▸ h.track, hhead ▸ h.buffer, h.pending,
        fun e he hd => (h.due e he hd).other hne rfl,
        fun hi => ((h.idle hi).mono hle).other hne rfl⟩
  | schedule fromNow type =>
      have hne : ∀ n w, Event.schedule fromNow type ≠ .request n w := by simp
      have hhead : headAfter f (tr ++ [(s, .schedule fromNow type)]) = headAfter f tr := by
        simp [Head.after]
      simp only [DiskTiming.step] at hs
      split at hs
      · cases hs
      · rename_i htype
        obtain rfl := Option.some.inj hs
        refine ⟨h.range, hhead ▸ h.track, hhead ▸ h.buffer, ?_, fun x hx hd => ?_,
          fun hi => (h.idle hi).other hne rfl⟩
        · show (sortedInsert _ s.clock.pending).countP isDisk = _
          rw [countP_sortedInsert]
          simpa [isDisk, htype] using h.pending
        · rcases mem_sortedInsert.mp hx with rfl | hmem
          · exact absurd (by simpa [isDisk] using hd) htype
          · exact (h.due x hmem hd).other hne rfl
  | request sectorNumber writing => exact h.request hf hno hs

theorem timed_of_run {f : Nat} {tr : History} {s : State} (hf : 0 < f)
    (hr : Run (step f) initial tr s) (hno : ∀ x ∈ tr, NoWrap f x.1 x.2) : Timed f tr s :=
  hr.invariant_of_steps (I := Timed f) (C := NoWrap f) (timed_initial f)
    (fun _ _ _ _ hi hc hs => hi.step hf hc hs) hno

end DiskTiming
end Nachos
