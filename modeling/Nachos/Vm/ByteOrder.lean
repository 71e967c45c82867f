/-
  Nachos.Vm.ByteOrder

  The byte order of the simulated machine.  `mips_endianess` is one variable for all
  processes: `CheckELFHeader` sets it when a program is executed, and `WordToHost` and
  `ShortToHost` read it at every access of user code to two or four bytes.

  The host puts the lowest byte of a number first, as the accesses to `mainMemory` do that
  `Memory.ReadMem` and `Memory.WriteMem` are.
-/

import Nachos.Vm.Loader

namespace Nachos
namespace Vm

open Transition Words

/-! ## The byte order -/

inductive Endianess where
  | IS_BIG_ENDIAN
  | IS_LITTLE_ENDIAN
  deriving DecidableEq

/-- What `CheckEndian` finds. -/
abbrev host_endianess : Endianess := .IS_LITTLE_ENDIAN

namespace Endianess

variable (mips_endianess : Endianess)

def WordToHost (word : BitVec 32) : BitVec 32 :=
  if host_endianess = mips_endianess then word
  else (word >>> 24 &&& 0x000000ff) ||| (word >>> 8 &&& 0x0000ff00) |||
    (word <<< 8 &&& 0x00ff0000) ||| (word <<< 24 &&& 0xff000000)

def ShortToHost (shortword : BitVec 16) : BitVec 16 :=
  if host_endianess = mips_endianess then shortword
  else (shortword <<< 8 &&& 0xff00) ||| (shortword >>> 8 &&& 0x00ff)

def ShortToMachine (shortword : BitVec 16) : BitVec 16 := ShortToHost mips_endianess shortword

def WordToMachine (word : BitVec 32) : BitVec 32 := WordToHost mips_endianess word

/-- The value of `MMU::ReadMem`, of what is in `mainMemory`. -/
def read (size : Nat) (data : BitVec 32) : BitVec 32 :=
  if size = 2 then (mips_endianess.ShortToHost (data.setWidth 16)).setWidth 32
  else if size = 4 then mips_endianess.WordToHost data
  else data

/-- What `MMU::WriteMem` puts into `mainMemory`. -/
def write (size : Nat) (value : BitVec 32) : BitVec 32 :=
  if size = 2 then (mips_endianess.ShortToMachine (value.setWidth 16)).setWidth 32
  else if size = 4 then mips_endianess.WordToMachine value
  else value

end Endianess

/-- `e_ident[EI_DATA]` of the header. -/
def Elf32_Ehdr.endianess (h : Elf32_Ehdr) : Endianess :=
  if h.msb then .IS_BIG_ENDIAN else .IS_LITTLE_ENDIAN

/-! ## The machine -/

structure Machine where
  system : System
  mips_endianess : Endianess

variable [VmConfig]

namespace Machine

variable (T : Threads) (s : Machine)

/-- The move with the value of a store in the byte order. -/
def ordered : Move → Move
  | .store virtAddr size value => .store virtAddr size (s.mips_endianess.write size value)
  | move => move

/-- A step of the system. -/
def step (move : Move) : Option Machine :=
  (Vm.step T s.system (s.ordered move)).map fun x => { s with system := x }

/-- The value that a load of `me` returns. -/
def loaded (me : SpaceId) : Move → Option (BitVec 32)
  | .load virtAddr size =>
      if T.process s.system.current = me then
        (s.system.memory.ReadMem me virtAddr size).map fun r => s.mips_endianess.read size r.2
      else none
  | _ => none

/-- The values that the loads of `me` return in a run; `none` when there is no such run. -/
def loads (me : SpaceId) : Machine → List Move → Option (List (BitVec 32))
  | _, [] => some []
  | s, move :: moves =>
      (s.step T move).bind fun s' =>
        (loads me s' moves).map fun values => (s.loaded T me move).toList ++ values

/-- `Exec` of the file `f`, whose process gets the address space `b`, as one step.  There is no
    result when the header is refused, which an `ASSERT` does not let pass. -/
def Exec (heap : Nat → Nat × Bool) (stack : Nat → Byte) (maxNumPages : Nat) (b : SpaceId)
    (f : FileId) : Option Machine :=
  if s.system.inUserCode T then
    let m := s.system.memory
    (CheckELFHeader ((m.files f).read stack 52 0)).bind fun elfHdr =>
      (AddrSpace.new (loadLater b maxNumPages) heap stack maxNumPages b f m).map fun m =>
        { system := { s.system with
            memory := { m with status := Function.update m.status b .live } }
          mips_endianess := elfHdr.endianess }
  else none

end Machine

/-- The move is not about the address space. -/
def Move.avoids (T : Threads) (b : SpaceId) : Move → Prop
  | .switch t => T.process t ≠ b
  | .destroy b' => b' ≠ b
  | _ => True

/-- The loads of `me` return the same in all runs from both states, as long as no thread of
    `b` runs, which is there in one of them only. -/
def SameLoads (T : Threads) (b me : SpaceId) (s s' : Machine) : Prop :=
  ∀ moves, (∀ move ∈ moves, move.avoids T b) → s'.loads T me moves = s.loads T me moves

/-! ## An address space that nobody has to do with -/

/-- The address space `b` is another one. -/
def Memory.withSpace (m : Memory) (b : SpaceId) (x : AddrSpace) (st : Status) : Memory :=
  { m with
    spaces := Function.update m.spaces b x
    status := Function.update m.status b st }

/-- The thread does nothing with the address space. -/
def Pc.avoids (b : SpaceId) (p : Pc) : Prop :=
  (∀ y, p.victim = some y → y.space ≠ b) ∧ ∀ b' i, p.destroys = some (b', i) → b' ≠ b

section withSpace

variable {m m' : Memory} {b b' me : SpaceId} {x : AddrSpace} {st : Status} {v f : Nat} {q : Fault}
  {y : Victim}

omit [VmConfig] in
theorem withSpace_space (hb : b' ≠ b) : (m.withSpace b x st).spaces b' = m.spaces b' :=
  Function.update_of_ne hb _ _

omit [VmConfig] in
theorem withSpace_status (hb : b' ≠ b) : (m.withSpace b x st).status b' = m.status b' :=
  Function.update_of_ne hb _ _

omit [VmConfig] in
theorem withSpace_entry (hb : b' ≠ b) : (m.withSpace b x st).entry b' v = m.entry b' v := by
  unfold Memory.entry
  rw [withSpace_space hb]

omit [VmConfig] in
theorem withSpace_modifyEntry (hb : b' ≠ b) (g : PageTableEntry → PageTableEntry) :
    (m.withSpace b x st).modifyEntry b' v g = (m.modifyEntry b' v g).withSpace b x st := by
  unfold Memory.modifyEntry
  rw [withSpace_space hb, withSpace_entry hb]
  unfold Memory.withSpace
  dsimp only
  rw [Function.update_comm hb]

omit [VmConfig] in
theorem withSpace_modifyFrame (g : Frame → Frame) :
    (m.withSpace b x st).modifyFrame f g = (m.modifyFrame f g).withSpace b x st := rfl

theorem withSpace_fill (buffer : Page) :
    (m.withSpace b x st).fill f buffer = (m.fill f buffer).withSpace b x st := rfl

theorem withSpace_load (hme : me ≠ b) : Vm.load me (m.withSpace b x st) q = Vm.load me m q := by
  unfold Vm.load
  rw [withSpace_entry hme, withSpace_space hme]

omit [VmConfig] in
theorem withSpace_takeOver (hy : y.space ≠ b) :
    (m.withSpace b x st).takeOver me q y = (m.takeOver me q y).withSpace b x st := by
  unfold Memory.takeOver
  rw [withSpace_modifyEntry hy, withSpace_modifyFrame]

omit [VmConfig] in
theorem withSpace_putPageSwap (n : Int) : (m.withSpace b x st).PutPageSwap n =
    ((m.PutPageSwap n).1.withSpace b x st, (m.PutPageSwap n).2) := by
  have hfree : (m.withSpace b x st).GetFreePage = m.GetFreePage := rfl
  unfold Memory.PutPageSwap
  rw [hfree]
  split
  · rfl
  · split
    · rfl
    · rfl

omit [VmConfig] in
theorem withSpace_swapOut (hy : y.space ≠ b) (n : Int) (fresh : Bool) :
    swapOut me (m.withSpace b x st) q y n fresh =
      ((swapOut me m q y n fresh).1.withSpace b x st, (swapOut me m q y n fresh).2) := by
  unfold swapOut
  dsimp only
  rw [withSpace_modifyEntry hy, withSpace_putPageSwap]
  generalize (m.modifyEntry y.space y.vpn (.setAddrDisk (-1))).PutPageSwap n = r
  obtain ⟨m₁, o⟩ := r
  cases o with
  | some sector => rfl
  | none =>
      dsimp only
      rw [withSpace_modifyEntry hy, withSpace_takeOver hy]

theorem withSpace_evict (hme : me ≠ b) (hy : y.space ≠ b) :
    Vm.evict me (m.withSpace b x st) q y =
      ((Vm.evict me m q y).1.withSpace b x st, (Vm.evict me m q y).2) := by
  unfold Vm.evict
  dsimp only
  rw [withSpace_entry hy, withSpace_space hme]
  split
  · split
    · rfl
    · rw [withSpace_takeOver hy]
  · split
    · split
      · exact withSpace_swapOut hy _ _
      · rw [withSpace_takeOver hy]
    · exact withSpace_swapOut hy _ _

omit [VmConfig] in
theorem withSpace_remove (howner : ∀ f, (m.tpr f).owner ≠ some b) :
    (m.withSpace b x st).RemovePhysicalToVirtualMapping f =
      (m.RemovePhysicalToVirtualMapping f).map fun m => m.withSpace b x st := by
  unfold Memory.RemovePhysicalToVirtualMapping
  have htpr : (m.withSpace b x st).tpr = m.tpr := rfl
  rw [htpr]
  split
  · rfl
  · dsimp only
    split
    · rfl
    · rename_i b' hb'
      have hne : b' ≠ b := by
        rintro rfl
        exact howner f hb'
      rw [withSpace_status hne]
      split
      · rfl
      · show some ((({ m with free_page_list := f :: m.free_page_list : Memory }.modifyFrame f
          fun fr => { fr with free := true, locked := false }).withSpace b x st).modifyEntry b' _
            _) = _
        rw [withSpace_modifyEntry hne]
        rfl

omit [VmConfig] in
theorem withSpace_passPage (hb : b' ≠ b) (i : Nat) :
    next.passPage (m.withSpace b x st) b' i = (next.passPage m b' i).withSpace b x st := by
  unfold next.passPage Memory.ReleasePageSwap
  dsimp only
  rw [withSpace_entry hb]
  split
  · unfold Memory.withSpace
    dsimp only
    rw [Function.update_comm hb]
  · unfold Memory.withSpace
    dsimp only
    rw [Function.update_comm hb]

omit [VmConfig] in
/-- The end of a page in the destructor of another address space. -/
theorem withSpace_releasePage (hb : b' ≠ b) (howner : ∀ f, (m.tpr f).owner ≠ some b) (i : Nat) :
    next.releasePage (m.withSpace b x st) b' i =
      (next.releasePage m b' i).map fun r => (r.1.withSpace b x st, r.2) := by
  unfold next.releasePage
  rw [withSpace_entry hb, withSpace_remove howner, Option.map_map, Option.map_map]
  congr 1
  funext m₁
  show (next.passPage (m₁.withSpace b x st) b' i, _) = _
  rw [withSpace_passPage hb]
  rfl

/-- A step that is not about the address space is the same with another one. -/
theorem next_withSpace {p : Pc} (hme : me ≠ b) (hp : p.avoids b)
    (howner : ∀ f, (m.tpr f).owner ≠ some b) :
    next me (m.withSpace b x st) p =
      (next me m p).map fun r => (r.1.withSpace b x st, r.2) := by
  have htpr : (m.withSpace b x st).tpr = m.tpr := rfl
  -- Access by access: none of them is to the address space `b`.
  cases p with
  | faultIo q =>
      unfold next
      dsimp only
      rw [withSpace_entry hme]
      split
      · rfl
      · split
        · rfl
        · rw [withSpace_modifyEntry hme, withSpace_load hme]
          rfl
  | addrIo q =>
      unfold next
      dsimp only
      rw [withSpace_entry hme]
      split
      · rfl
      · rfl
  | readFile q f ad | readSwap q sector | writeFile q y f ad | writeSwap q y sector ad fresh
  | destroyWrite b' i f ad p =>
      unfold next
      dsimp only
      split
      · rfl
      · rfl
  | map q =>
      have hlist : (m.withSpace b x st).free_page_list = m.free_page_list := rfl
      unfold next
      dsimp only
      rw [hlist, htpr]
      split
      · split
        · rfl
        · rfl
      · rfl
  | mapped q f =>
      unfold next
      dsimp only
      rw [withSpace_fill, withSpace_modifyEntry hme, htpr]
      split
      · rfl
      · rfl
  | search q loc i =>
      unfold next Memory.busy
      dsimp only
      rw [htpr]
      split
      · rfl
      · rename_i b' hb'
        -- No frame belongs to the address space.
        have hne : b' ≠ b := by
          rintro rfl
          exact howner loc hb'
        rw [withSpace_status hne, withSpace_entry hne, withSpace_modifyEntry hne,
          withSpace_modifyEntry hne]
        split
        · rfl
        · split
          · split
            · rfl
            · rfl
          · rfl
  | evictIo q y =>
      have hy := hp.1 y rfl
      unfold next
      dsimp only
      rw [withSpace_status hy, withSpace_entry hy, withSpace_modifyEntry hy,
        withSpace_evict hme hy]
      split
      · rfl
      · split
        · rfl
        · rfl
  | wroteFile q y =>
      have hy := hp.1 y rfl
      unfold next
      dsimp only
      rw [withSpace_status hy, withSpace_takeOver hy]
      split
      · rfl
      · rfl
  | wroteSwap q y sector ad fresh =>
      have hy := hp.1 y rfl
      unfold next
      dsimp only
      rw [withSpace_status hy, withSpace_modifyEntry hy, withSpace_takeOver hy]
      split
      · rfl
      · rfl
  | destroyPage b' i =>
      have hb := hp.2 b' i rfl
      unfold next
      dsimp only
      rw [withSpace_space hb, withSpace_entry hb, withSpace_passPage hb,
        withSpace_releasePage hb howner]
      split
      · split
        · split
          · rfl
          · rfl
        · rfl
      · unfold Memory.withSpace
        dsimp only [Option.map_some]
        -- The status of the other address space.
        rw [Function.update_comm hb]
  | destroyWrote b' i => exact withSpace_releasePage (hp.2 b' i rfl) howner i
  | faultYield q | addrYield q | readDone q | searchYield q loc i | evictYield q y => rfl

end withSpace

/-! ## What stays away from the address space -/

section avoids

variable {m m' : Memory} {b me : SpaceId} {p : Pc} {o : Option Pc}

omit [VmConfig] in
theorem owner_modifyFrame {f : Nat} {g : Frame → Frame} (howner : ∀ f, (m.tpr f).owner ≠ some b)
    (hg : (g (m.tpr f)).owner ≠ some b) (f' : Nat) :
    ((m.modifyFrame f g).tpr f').owner ≠ some b := by
  rw [Memory.modifyFrame_tpr]
  split
  · exact hg
  · exact howner f'

omit [VmConfig] in
theorem owner_takeOver {q : Fault} {x : Victim} (hme : me ≠ b)
    (howner : ∀ f, (m.tpr f).owner ≠ some b) (f : Nat) :
    ((m.takeOver me q x).tpr f).owner ≠ some b :=
  owner_modifyFrame (m := m.modifyEntry x.space x.vpn .clearBitIo) howner
    (fun h => hme (Option.some.inj h)) f

omit [VmConfig] in
theorem owner_released {f i : Nat} {b' : SpaceId} {m₁ : Memory}
    (howner : ∀ f, (m.tpr f).owner ≠ some b)
    (hm₁ : m.RemovePhysicalToVirtualMapping f = some m₁) (f' : Nat) :
    ((next.passPage m₁ b' i).tpr f').owner ≠ some b := by
  obtain ⟨b₁, hrel⟩ := released_of_remove hm₁
  have htpr : (next.passPage m₁ b' i).tpr = m₁.tpr := by
    unfold next.passPage Memory.ReleasePageSwap
    dsimp only
    split
    · rfl
    · rfl
  rw [htpr, hrel.tpr]
  split
  · exact howner f
  · exact howner f'

/-- A thread gets frames for its own address space only. -/
theorem next_owner (hr : Next me m p m' o) (hme : me ≠ b)
    (howner : ∀ f, (m.tpr f).owner ≠ some b) (f : Nat) : (m'.tpr f).owner ≠ some b := by
  cases hr with
  | @take q f' rest hl hfree =>
      exact owner_modifyFrame (m := { m with free_page_list := rest }) howner
        (fun h => hme (Option.some.inj h)) f
  | @finish q f' hlocked hfree =>
      exact owner_modifyFrame (m := (m.fill f' q.buffer).modifyEntry me q.vpn (.loaded f'))
        howner (howner f') f
  | @stop q loc i b' hb hd hbusy =>
      exact owner_modifyFrame
        (m := { m.modifyEntry b' (m.tpr loc).virtualPage .clearBitValid with i_clock := loc })
        howner (howner loc) f
  | @evict q x hd hio =>
      have hcases := evict_cases me (m.modifyEntry x.space x.vpn .setBitIo) q x
      generalize Vm.evict me (m.modifyEntry x.space x.vpn .setBitIo) q x = r at hcases
      cases hcases with
      | file f' ad => exact howner f
      | swap hsame =>
          rw [hsame.tpr]
          exact howner f
      | on hsame =>
          refine owner_takeOver hme (fun f => ?_) f
          rw [hsame.tpr]
          exact howner f
  | wroteFile hd => exact owner_takeOver hme howner f
  | @wroteSwap q x n ad fresh hd =>
      exact owner_takeOver (m := m.modifyEntry x.space x.vpn (.swapped ad fresh)) hme howner f
  | release hlt hvalid hnot hm₁ => exact owner_released howner hm₁ f
  | destroyWrote hm₁ => exact owner_released howner hm₁ f
  | @skip b' i hlt hvalid =>
      have htpr : (next.passPage m b' i).tpr = m.tpr := by
        unfold next.passPage Memory.ReleasePageSwap
        dsimp only
        split
        · rfl
        · rfl
      rw [htpr]
      exact howner f
  | _ => exact howner f

/-- The victims are found by their frames. -/
theorem next_avoids (hr : Next me m p m' o) (hp : p.avoids b)
    (howner : ∀ f, (m.tpr f).owner ≠ some b) : ∀ p' ∈ o, p'.avoids b := by
  intro p' hp'
  constructor
  · intro y hy
    rcases next_victim hr hp' hy with hy | ⟨q, loc, i, -, hown, -⟩
    · exact hp.1 y hy
    · rintro rfl
      exact howner loc hown
  · intro b' i hd'
    cases hd : p.destroys with
    | none => exact absurd ((next_handler hr hd p' hp').symm.trans hd') nofun
    | some r =>
        obtain ⟨-, ⟨rfl, -⟩ | ⟨p'', i', rfl, hd'', -⟩⟩ := next_destructor hr hd
        · exact nomatch hp'
        · obtain rfl := Option.some.inj hp'
          obtain ⟨rfl, -⟩ := Prod.mk.inj (Option.some.inj (hd''.symm.trans hd'))
          exact hp.2 _ _ hd

/-- Nobody has to do with the address space. -/
structure Unused (T : Threads) (b : SpaceId) (s : System) : Prop where
  owner : ∀ f, (s.memory.tpr f).owner ≠ some b
  thread : ∀ t p, s.pc t = some p → T.process t ≠ b ∧ p.avoids b
  current : T.process s.current ≠ b

variable {T : Threads} {s s' : System} {move : Move}

omit [VmConfig] in
/-- A thread that comes to a place which has nothing to do with the address space. -/
theorem Unused.place (h : Unused T b s) {m : Memory} {o : Option Pc}
    (howner : ∀ f, (m.tpr f).owner ≠ some b) (ho : ∀ p ∈ o, p.avoids b) :
    Unused T b ⟨m, s.current, Function.update s.pc s.current o⟩ where
  owner := howner
  thread t p hp := by
    dsimp only at hp
    rw [Function.update_apply] at hp
    split at hp
    · rename_i ht
      rw [ht]
      exact ⟨h.current, ho p hp⟩
    · exact h.thread t p hp
  current := h.current

theorem Unused.step (h : Unused T b s) (hb : move.avoids T b) (hs : Step T s move s') :
    Unused T b s' := by
  cases hs with
  | switch hsw => exact ⟨h.owner, h.thread, hb⟩
  | load hu hm' =>
      refine ⟨fun f => ?_, h.thread, h.current⟩
      rw [(readMem_sameFrames hm').tpr]
      exact h.owner f
  | store hu hm' =>
      refine ⟨fun f => ?_, h.thread, h.current⟩
      rw [(writeMem_sameFrames hm').tpr]
      exact h.owner f
  | fault hu hvalid hallowed =>
      refine h.place h.owner fun p hp => ?_
      obtain rfl := Option.some.inj hp
      exact ⟨nofun, nofun⟩
  | destroy hmem hnone hlive hended =>
      refine h.place h.owner fun p hp => ?_
      obtain rfl := Option.some.inj hp
      refine ⟨nofun, fun b' i hd => ?_⟩
      obtain ⟨rfl, -⟩ := Prod.mk.inj (Option.some.inj hd)
      exact hb
  | advance hp hr =>
      exact h.place (next_owner hr h.current h.owner)
        (next_avoids hr (h.thread _ _ hp).2 h.owner)

end avoids

/-! ## The runs with and without the address space -/

section runs

variable {T : Threads} {m : Memory} {b me : SpaceId} {x : AddrSpace} {st : Status}

theorem withSpace_translate (hme : me ≠ b) (virtAddr size : Nat) (writing : Bool) :
    (m.withSpace b x st).Translate me virtAddr size writing =
      (m.Translate me virtAddr size writing).map fun r => (r.1.withSpace b x st, r.2) := by
  unfold Memory.Translate
  dsimp only
  rw [withSpace_entry hme, withSpace_modifyEntry hme]
  split
  · rfl
  · split
    · rfl
    · split
      · rfl
      · rfl

theorem withSpace_readMem (hme : me ≠ b) (virtAddr size : Nat) :
    (m.withSpace b x st).ReadMem me virtAddr size =
      (m.ReadMem me virtAddr size).map fun r => (r.1.withSpace b x st, r.2) := by
  unfold Memory.ReadMem
  rw [withSpace_translate hme]
  split
  · rw [Option.map_map, Option.map_map]
    rfl
  · rfl

theorem withSpace_writeMem (hme : me ≠ b) (virtAddr size : Nat) (value : BitVec 32) :
    (m.withSpace b x st).WriteMem me virtAddr size value =
      (m.WriteMem me virtAddr size value).map fun m => m.withSpace b x st := by
  unfold Memory.WriteMem
  rw [withSpace_translate hme]
  split
  · rw [Option.map_map, Option.map_map]
    rfl
  · rfl

def System.withSpace (s : System) (b : SpaceId) (x : AddrSpace) (st : Status) : System :=
  { s with memory := s.memory.withSpace b x st }

def Machine.withSpace (s : Machine) (b : SpaceId) (x : AddrSpace) (st : Status) : Machine :=
  { s with system := s.system.withSpace b x st }

omit [VmConfig] in
theorem withSpace_inUserCode {s : System} (h : T.process s.current ≠ b) :
    (s.withSpace b x st).inUserCode T = s.inUserCode T := by
  unfold System.inUserCode
  show decide (s.current ∈ T.all ∧ (s.pc s.current).isNone ∧
    (s.memory.withSpace b x st).status (T.process s.current) = .live) = _
  rw [withSpace_status h]

/-- A move that avoids the address space does the same with another one. -/
theorem step_withSpace {s : System} {move : Move} (h : Unused T b s) (hb : move.avoids T b) :
    step T (s.withSpace b x st) move =
      (step T s move).map fun s => s.withSpace b x st := by
  have hme := h.current
  have hcurrent : (s.withSpace b x st).current = s.current := rfl
  have hmemory : (s.withSpace b x st).memory = s.memory.withSpace b x st := rfl
  have hpc : (s.withSpace b x st).pc = s.pc := rfl
  cases move with
  | switch t =>
      have hmay : (s.withSpace b x st).maySwitch = s.maySwitch := rfl
      unfold step
      dsimp only
      rw [hmay]
      split
      · rfl
      · rfl
  | load virtAddr size =>
      unfold step
      dsimp only
      rw [withSpace_inUserCode hme, hmemory, hcurrent, withSpace_readMem hme]
      split
      · rw [Option.map_map, Option.map_map]
        rfl
      · rfl
  | store virtAddr size value =>
      unfold step
      dsimp only
      rw [withSpace_inUserCode hme, hmemory, hcurrent, withSpace_writeMem hme]
      split
      · rw [Option.map_map, Option.map_map]
        rfl
      · rfl
  | fault vpn buffer =>
      unfold step
      dsimp only
      rw [withSpace_inUserCode hme, hmemory, hcurrent, withSpace_entry hme]
      split
      · rfl
      · rfl
  | destroy b' =>
      have hend : (s.withSpace b x st).ended T b' = s.ended T b' := rfl
      unfold step
      dsimp only
      rw [hend, hmemory, hpc, hcurrent, withSpace_status hb]
      split
      · unfold System.withSpace Memory.withSpace
        dsimp only [Option.map_some]
        -- The end of another process.
        rw [Function.update_comm hb]
      · rfl
  | advance =>
      unfold step
      dsimp only
      rw [hpc, hmemory, hcurrent]
      cases hp : s.pc s.current with
      | none => rfl
      | some p =>
          dsimp only [Option.bind_some]
          rw [next_withSpace hme (h.thread _ _ hp).2 h.owner, Option.map_map, Option.map_map]
          rfl

omit [VmConfig] in
theorem avoids_ordered {s : Machine} {move : Move} (h : move.avoids T b) :
    (s.ordered move).avoids T b := by
  cases move with
  | _ => exact h

/-- Nobody sees the difference. -/
theorem loads_withSpace {s : Machine} {moves : List Move} (h : Unused T b s.system)
    (hmoves : ∀ move ∈ moves, move.avoids T b) :
    (s.withSpace b x st).loads T me moves = s.loads T me moves := by
  induction moves generalizing s with
  | nil => rfl
  | cons move moves ih =>
      have hb := hmoves move List.mem_cons_self
      have hb' := avoids_ordered (s := s) hb
      have hstep : (s.withSpace b x st).step T move =
          (s.step T move).map fun s => s.withSpace b x st := by
        have hord : (s.withSpace b x st).ordered move = s.ordered move := rfl
        have hsystem : (s.withSpace b x st).system = s.system.withSpace b x st := rfl
        unfold Machine.step
        rw [hord, hsystem, step_withSpace h hb', Option.map_map, Option.map_map]
        rfl
      have hloaded : (s.withSpace b x st).loaded T me move = s.loaded T me move := by
        unfold Machine.loaded
        split
        · show (if T.process s.system.current = me then _ else _) = _
          split
          · rename_i hme
            show ((s.system.memory.withSpace b x st).ReadMem me _ _).map _ = _
            rw [withSpace_readMem (hme ▸ h.current), Option.map_map]
            rfl
          · rfl
        · rfl
      unfold Machine.loads
      rw [hstep, hloaded]
      cases hs : s.step T move with
      | none => rfl
      | some s' =>
          have hs' : Unused T b s'.system := by
            obtain ⟨x, hx, rfl⟩ := Option.map_eq_some_iff.mp hs
            exact h.step hb' (step_cases hx)
          show ((s'.withSpace b x st).loads T me moves).map _ = _
          rw [ih hs' fun m hm => hmoves m (List.mem_cons_of_mem _ hm)]
          rfl

end runs

/-! ## `Exec` -/

/-- The byte order of the program in the file: its byte `EI_DATA`. -/
def File.encoding (stack : Nat → Byte) (f : File) : Endianess :=
  if f.read stack 52 0 5 = 2 then .IS_BIG_ENDIAN else .IS_LITTLE_ENDIAN

omit [VmConfig] in
theorem endianess_of_check {f : File} {stack : Nat → Byte} {h : Elf32_Ehdr}
    (hh : CheckELFHeader (f.read stack 52 0) = some h) : h.endianess = f.encoding stack := by
  unfold CheckELFHeader at hh
  dsimp only at hh
  iterate 6
    split at hh
    · cases hh
  obtain rfl := Option.some.inj hh
  unfold Elf32_Ehdr.endianess File.encoding
  simp only [beq_iff_eq]

/-- The constructor fills in the address space, and nothing else. -/
theorem new_space {heap : Nat → Nat × Bool} {stack : Nat → Byte} {maxNumPages : Nat}
    {b : SpaceId} {f : FileId} {m d : Memory}
    (hd : AddrSpace.new (loadLater b maxNumPages) heap stack maxNumPages b f m = some d) :
    ∃ x, d = { m with spaces := Function.update m.spaces b x } := by
  unfold AddrSpace.new at hd
  obtain ⟨table, -, hd⟩ := Option.bind_eq_some_iff.mp hd
  dsimp only at hd
  split at hd
  · cases hd
  · rw [loadSections_eq (aligned_of_loadSections hd)] at hd
    refine foldlM_invariant (P := fun d => ∃ x, d = { m with
      spaces := Function.update m.spaces b x }) ?_ ⟨_, rfl⟩ hd
    rintro y - d d' ⟨x, rfl⟩ hstep
    unfold loadLater at hstep
    split at hstep
    · cases hstep
    · obtain rfl := Option.some.inj hstep
      unfold Memory.modifyEntry
      rw [Function.update_idem]
      exact ⟨_, rfl⟩

section Exec

variable {T : Threads} {s s₁ : Machine} {heap : Nat → Nat × Bool} {stack : Nat → Byte}
  {maxNumPages : Nat} {b me : SpaceId} {f : FileId}

/-- `Exec` makes an address space, and sets the byte order of all processes. -/
theorem exec_cases (hex : s.Exec T heap stack maxNumPages b f = some s₁) :
    s.system.inUserCode T = true ∧
      ∃ x, s₁ = ⟨s.system.withSpace b x .live, (s.system.memory.files f).encoding stack⟩ := by
  unfold Machine.Exec at hex
  split at hex
  · rename_i hu
    dsimp only at hex
    obtain ⟨elfHdr, hheader, hex⟩ := Option.bind_eq_some_iff.mp hex
    obtain ⟨d, hd, rfl⟩ := Option.map_eq_some_iff.mp hex
    obtain ⟨x, rfl⟩ := new_space hd
    refine ⟨hu, x, ?_⟩
    rw [endianess_of_check hheader]
    rfl
  · cases hex

/-- When the program has the byte order that is in force, no process sees that it is
    executed. -/
theorem sameLoads_of_encoding (hex : s.Exec T heap stack maxNumPages b f = some s₁)
    (hb : Unused T b s.system)
    (henc : (s.system.memory.files f).encoding stack = s.mips_endianess) :
    SameLoads T b me s s₁ := by
  obtain ⟨-, x, rfl⟩ := exec_cases hex
  intro moves hmoves
  rw [henc]
  exact loads_withSpace hb hmoves

/-! ### A store and a load -/

/-- A thread of the process can run, and the page is in a frame and may be written. -/
structure CanStore (T : Threads) (me : SpaceId) (t : ThreadId) (v : Nat) (s : System) : Prop where
  thread : t ∈ T.all
  process : T.process t = me
  pc : s.pc t = none
  live : s.memory.status me = .live
  valid : (s.memory.entry me v).valid = true
  write : (s.memory.entry me v).writeAllowed = true
  frame : (s.memory.entry me v).physicalPage < NumPhysPages

omit [VmConfig] in
/-- The low byte of the word is 4 in one byte order, and 1 in the other. -/
theorem byte_injective {e e' : Endianess}
    (h : (valueByte (e.write 4 0x01020304) 0).signExtend 32 =
      (valueByte (e'.write 4 0x01020304) 0).signExtend 32) : e = e' := by
  revert h
  cases e with
  | IS_BIG_ENDIAN =>
      cases e' with
      | IS_BIG_ENDIAN => exact fun _ => rfl
      | IS_LITTLE_ENDIAN => exact fun h => absurd h (by decide)
  | IS_LITTLE_ENDIAN =>
      cases e' with
      | IS_BIG_ENDIAN => exact fun h => absurd h (by decide)
      | IS_LITTLE_ENDIAN => exact fun _ => rfl

/-- The first byte of a word, after the word has been stored. -/
def probe (t : ThreadId) (v : Nat) : List Move :=
  [.switch t, .store (v * PageSize) 4 0x01020304, .load (v * PageSize) 1]

theorem pageSize_mod_four : PageSize % 4 = 0 := by
  obtain ⟨k, hlo, -, hk⟩ := Config.powerOfTwo
  unfold PageSize
  rw [hk]
  exact Nat.mod_eq_zero_of_dvd (pow_dvd_pow 2 (show 2 ≤ k by omega))

/-- The page of the address can be accessed. -/
theorem translate_page {m : Memory} {v size : Nat} {writing : Bool}
    (hsize : v * PageSize % size = 0) (hvalid : (m.entry me v).valid = true)
    (hwrite : (m.entry me v).writeAllowed = true)
    (hframe : (m.entry me v).physicalPage < NumPhysPages) :
    m.Translate me (v * PageSize) size writing =
      some (m.modifyEntry me v (.accessed writing), (m.entry me v).physicalPage * PageSize) := by
  have hdiv : v * PageSize / PageSize = v := Nat.mul_div_cancel v pageSize_pos
  have hmod : v * PageSize % PageSize = 0 := Nat.mul_mod_left v PageSize
  unfold Memory.Translate
  dsimp only
  rw [hdiv, hmod, if_neg (by omega), if_neg (by simp [hwrite]), if_neg (by simp [hvalid, hframe])]
  rfl

/-- The byte shows the byte order. -/
theorem loads_probe {t : ThreadId} {v : Nat} (hmay : s.system.maySwitch = true)
    (h : CanStore T me t v s.system) : s.loads T me (probe t v) =
      some [(valueByte (s.mips_endianess.write 4 0x01020304) 0).signExtend 32] := by
  obtain ⟨ht, rfl, hpc, hlive, hvalid, hwrite, hframe⟩ := h
  let value := s.mips_endianess.write 4 0x01020304
  let a := (s.system.memory.entry (T.process t) v).physicalPage * PageSize
  have hfour : v * PageSize % 4 = 0 := by
    rw [Nat.mul_mod, pageSize_mod_four, Nat.mul_zero, Nat.zero_mod]
  -- The word is stored.
  let m := s.system.memory.modifyEntry (T.process t) v (.accessed true)
  let m₁ : Memory := { m with
    mainMemory := fun j => if a ≤ j ∧ j < a + 4 then valueByte value (j - a) else m.mainMemory j }
  have hstore : s.system.memory.WriteMem (T.process t) (v * PageSize) 4 value = some m₁ := by
    unfold Memory.WriteMem
    rw [if_pos (by simp), translate_page hfour hvalid hwrite hframe]
    rfl
  -- Its first byte is loaded from the same place.
  have hentry : m₁.entry (T.process t) v =
      (s.system.memory.entry (T.process t) v).accessed true := Memory.entry_modifyEntry_self _
  have hload : m₁.ReadMem (T.process t) (v * PageSize) 1 =
      some (m₁.modifyEntry (T.process t) v (.accessed false), (valueByte value 0).signExtend 32) := by
    unfold Memory.ReadMem
    rw [if_pos (Or.inl rfl), translate_page (Nat.mod_one _) (by rw [hentry]; exact hvalid)
      (by rw [hentry]; exact hwrite) (by rw [hentry]; exact hframe), hentry]
    show some (_, ((if a ≤ a + 0 ∧ a + 0 < a + 4 then valueByte value (a + 0 - a)
      else m.mainMemory (a + 0))).signExtend 32) = _
    rw [if_pos (by omega), Nat.add_sub_cancel_left]
  have huser : ∀ m' : Memory, m'.status = s.system.memory.status →
      System.inUserCode T ⟨m', t, s.system.pc⟩ = true := by
    intro m' hst
    rw [System.inUserCode_iff]
    exact ⟨ht, hpc, (congrFun hst _).trans hlive⟩
  have h₁ : s.step T (.switch t) = some { s with system := { s.system with current := t } } := by
    show (Vm.step T s.system (.switch t)).map _ = _
    unfold Vm.step
    dsimp only
    rw [if_pos hmay]
    rfl
  have h₂ : Machine.step T { s with system := { s.system with current := t } }
      (.store (v * PageSize) 4 0x01020304) = some ⟨⟨m₁, t, s.system.pc⟩, s.mips_endianess⟩ := by
    show (Vm.step T _ (.store (v * PageSize) 4 value)).map _ = _
    unfold Vm.step
    dsimp only
    rw [if_pos (huser _ rfl), hstore]
    rfl
  have h₃ : Machine.step T ⟨⟨m₁, t, s.system.pc⟩, s.mips_endianess⟩ (.load (v * PageSize) 1) =
      some ⟨⟨m₁.modifyEntry (T.process t) v (.accessed false), t, s.system.pc⟩,
        s.mips_endianess⟩ := by
    show (Vm.step T _ (.load (v * PageSize) 1)).map _ = _
    unfold Vm.step
    dsimp only
    rw [if_pos (huser m₁ rfl), hload]
    rfl
  have h₄ : Machine.loaded T ⟨⟨m₁, t, s.system.pc⟩, s.mips_endianess⟩ (T.process t)
      (.load (v * PageSize) 1) = some ((valueByte value 0).signExtend 32) := by
    unfold Machine.loaded
    dsimp only
    rw [if_pos rfl, hload]
    rfl
  unfold probe
  simp only [Machine.loads, h₁, h₂, h₃, h₄, Option.bind_some, Option.map_some]
  rfl

theorem sameLoads_iff {t : ThreadId} {v : Nat}
    (hex : s.Exec T heap stack maxNumPages b f = some s₁) (hb : Unused T b s.system)
    (hme : me ≠ b) (hstore : CanStore T me t v s.system) :
    SameLoads T b me s s₁ ↔ (s.system.memory.files f).encoding stack = s.mips_endianess := by
  constructor
  · intro hsame
    obtain ⟨hu, x, rfl⟩ := exec_cases hex
    obtain ⟨-, hnone, -⟩ := System.inUserCode_iff.mp hu
    have hmay : s.system.maySwitch = true := by
      unfold System.maySwitch
      rw [hnone]
    have hstore₁ : CanStore T me t v (s.system.withSpace b x .live) := by
      have hst : (s.system.withSpace b x .live).memory.status me = s.system.memory.status me :=
        withSpace_status hme
      have he : (s.system.withSpace b x .live).memory.entry me v = s.system.memory.entry me v :=
        withSpace_entry hme
      exact {
        thread := hstore.thread
        process := hstore.process
        pc := hstore.pc
        live := hst.trans hstore.live
        valid := he ▸ hstore.valid
        write := he ▸ hstore.write
        frame := he ▸ hstore.frame }
    have havoid : ∀ move ∈ probe t v, move.avoids T b := by
      have ht : T.process t ≠ b := hstore.process ▸ hme
      simp [probe, Move.avoids, ht]
    have hloads := hsame (probe t v) havoid
    rw [loads_probe hmay hstore,
      loads_probe (s := ⟨s.system.withSpace b x .live, _⟩) hmay hstore₁] at hloads
    exact byte_injective (List.cons.inj (Option.some.inj hloads)).1
  · exact sameLoads_of_encoding hex hb

/-- No process sees that a program is executed when the program has the byte order that is
    in force, and otherwise each process sees it that can store a word. -/
theorem exec_invisible_iff (hex : s.Exec T heap stack maxNumPages b f = some s₁)
    (hb : Unused T b s.system) :
    ((s.system.memory.files f).encoding stack = s.mips_endianess →
        ∀ me, SameLoads T b me s s₁) ∧
      ∀ me t v, me ≠ b → CanStore T me t v s.system →
        (SameLoads T b me s s₁ ↔
          (s.system.memory.files f).encoding stack = s.mips_endianess) :=
  ⟨fun henc _ => sameLoads_of_encoding hex hb henc,
    fun _ _ _ hme hstore => sameLoads_iff hex hb hme hstore⟩

end Exec

/-! ## A program in the other byte order -/

/-- The beginning of a big-endian file, with one section of a page. -/
def bigBytes : List Byte :=
  List.flatten [
    [0x7f, 0x45, 0x4c, 0x46, 1, 2, 1], List.replicate 9 0, [0, 2, 0, 8], List.replicate 12 0,
    [0, 0, 0, 52], List.replicate 4 0, [0, 52, 0, 0, 0, 0, 0, 40, 0, 2, 0, 0],
    List.replicate 40 0,
    [0, 0, 0, 0, 0, 0, 0, 1, 0, 0, 0, 2, 0, 0, 0, 0, 0, 0, 1, 0, 0, 0, 0, 128],
    List.replicate 16 0]

/-- Two processes, of one thread each. -/
def twoProcesses : Threads := ⟨[0, 1], fun t => min t 1⟩

/-- A page for each process, and a file in each byte order. -/
def started : Machine :=
  let _ := VmConfig.four
  let files := fun f => ⟨fun i => (if f = 0 then elfBytes else bigBytes).getD i 0, 512, 512⟩
  ⟨⟨newMemory (fun _ => newSpace 1 (fun _ => -1) []) files, 0, fun _ => none⟩, .IS_LITTLE_ENDIAN⟩

/-- The first process has come to its page, and the second runs. -/
def bothStarted : Option (List (Machine × Move) × Machine) :=
  let _ := VmConfig.four
  exec (Machine.step twoProcesses) started
    [.fault 0 (fun _ => 0), .advance, .advance, .advance, .switch 1]

/-- The second process executes a file, for a third one. -/
def andExec (f : FileId) : Option ((List (Machine × Move) × Machine) × Machine) :=
  let _ := VmConfig.four
  bothStarted.bind fun r =>
    (r.2.Exec twoProcesses (fun _ => (0, false)) (fun _ => 0) 16 2 f).map fun s₁ => (r, s₁)

/-- Nobody has to do with an address space that no thread runs in. -/
theorem unused_of_run {T : Threads} {s₀ s : Machine} {tr : List (Machine × Move)} {b : SpaceId}
    (h₀ : Unused T b s₀.system) (hr : Run (Machine.step T) s₀ tr s)
    (htr : ∀ y ∈ tr, y.2.avoids T b) : Unused T b s.system := by
  refine hr.invariant_of_steps (I := fun _ s => Unused T b s.system)
    (C := fun _ move => move.avoids T b) h₀ ?_ htr
  intro _ s move s' h hmove hs
  obtain ⟨x, hx, rfl⟩ := Option.map_eq_some_iff.mp hs
  exact h.step (avoids_ordered hmove) (step_cases hx)

omit [VmConfig] in
/-- The third process has not been there before. -/
theorem andExec_cases {f : FileId} {tr : List (Machine × Move)} {s s₁ : Machine}
    (h : andExec f = some ((tr, s), s₁))
    (htr : (tr.all fun y => match y.2 with | .destroy _ => false | _ => true) = true) :
    Unused twoProcesses 2 s.system ∧
      @Machine.Exec VmConfig.four twoProcesses s (fun _ => (0, false)) (fun _ => 0) 16 2 f =
        some s₁ := by
  let _ := VmConfig.four
  unfold andExec at h
  obtain ⟨r, hr, h⟩ := Option.bind_eq_some_iff.mp h
  obtain ⟨s₂, hs₂, h⟩ := Option.map_eq_some_iff.mp h
  obtain ⟨rfl, rfl⟩ := Prod.mk.inj h
  have h₀ : Unused twoProcesses 2 started.system :=
    ⟨fun _ h => (nomatch h), fun _ _ h => (nomatch h), by decide⟩
  refine ⟨unused_of_run h₀ (run_of_exec hr) fun y hy => ?_, hs₂⟩
  have hy' := List.all_eq_true.mp htr y hy
  generalize y.2 = move at hy'
  cases move with
  | switch t => exact Nat.ne_of_lt (Nat.lt_succ_of_le (Nat.min_le_right t 1))
  | destroy b => cases hy'
  | _ => trivial

omit [VmConfig] in
/-- A program in the byte order of the first process is executed. -/
theorem exec_invisible_little :
    ∃ (tr : List (Machine × Move)) (s s₁ : Machine), andExec 0 = some ((tr, s), s₁) ∧
      @CanStore VmConfig.four twoProcesses 0 0 0 s.system ∧
      @SameLoads VmConfig.four twoProcesses 2 0 s s₁ := by
  let _ := VmConfig.four
  obtain ⟨⟨⟨tr, s⟩, s₁⟩, he, hx⟩ := Option.map_eq_some_iff.mp
    (show (andExec 0).map (fun x =>
        ((x.1.2.system.memory.files 0).encoding fun _ => 0, x.1.2.mips_endianess,
          x.1.2.system.pc 0 |>.isNone, x.1.2.system.memory.status 0)) =
      some (.IS_LITTLE_ENDIAN, .IS_LITTLE_ENDIAN, true, .live) by decide +kernel)
  have hy : (andExec 0).map (fun x =>
      (x.1.1.all fun y => match y.2 with | .destroy _ => false | _ => true,
        (x.1.2.system.memory.entry 0 0).valid, (x.1.2.system.memory.entry 0 0).writeAllowed,
        decide ((x.1.2.system.memory.entry 0 0).physicalPage < 4))) =
    some (true, true, true, true) := by decide +kernel
  rw [he, Option.map_some, Option.some.injEq] at hy
  simp only [Prod.mk.injEq] at hx hy
  obtain ⟨henc, horder, hpc, hlive⟩ := hx
  obtain ⟨htr, hvalid, hwrite, hframe⟩ := hy
  obtain ⟨hunused, hex⟩ := andExec_cases he htr
  have hcan : CanStore twoProcesses 0 0 0 s.system := {
    thread := by decide
    process := rfl
    pc := Option.isNone_iff_eq_none.mp hpc
    live := hlive
    valid := hvalid
    write := hwrite
    frame := of_decide_eq_true hframe }
  have hsame := ((exec_invisible_iff hex hunused).2 0 0 0 (by decide) hcan).mpr
    (henc.trans horder.symm)
  exact ⟨tr, s, s₁, he, hcan, hsame⟩

omit [VmConfig] in
/-- The second process executes a big-endian program, and then the first one loads the bytes
    of a word that it stores in the other order. -/
theorem exec_invisible_fails :
    ¬ ∀ [VmConfig] (T : Threads) (s s₁ : Machine) (heap : Nat → Nat × Bool)
      (stack : Nat → Byte) (maxNumPages : Nat) (b me : SpaceId) (f : FileId),
      s.Exec T heap stack maxNumPages b f = some s₁ → Unused T b s.system → me ≠ b →
        T.process s.system.current ≠ me → SameLoads T b me s s₁ := by
  let _ := VmConfig.four
  intro h
  obtain ⟨⟨⟨tr, s⟩, s₁⟩, he, hx⟩ := Option.map_eq_some_iff.mp
    (show (andExec 1).map (fun x =>
        (x.1.1.all fun y => match y.2 with | .destroy _ => false | _ => true,
          x.1.2.system.current, x.1.2.loads twoProcesses 0 (probe 0 0),
          x.2.loads twoProcesses 0 (probe 0 0))) =
      some (true, 1, some [4], some [1]) by decide +kernel)
  simp only [Prod.mk.injEq] at hx
  obtain ⟨htr, hcurrent, hbefore, hafter⟩ := hx
  obtain ⟨hunused, hex⟩ := andExec_cases he htr
  have hother : twoProcesses.process s.system.current ≠ 0 := by
    rw [hcurrent]
    decide
  have hsame := h twoProcesses s s₁ _ _ 16 2 0 1 hex hunused (by decide) hother (probe 0 0)
    (by simp [probe, Move.avoids, twoProcesses])
  exact absurd (hafter.symm.trans (hsame.trans hbefore)) (by decide)

end Vm
end Nachos
