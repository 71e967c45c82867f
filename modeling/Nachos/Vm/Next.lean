/-
  Nachos.Vm.Next

  The steps of a thread in the routines of virtual memory, one case for each branch
  of `next`, with what the branch tests.
-/

import Nachos.Vm.Machine

namespace Nachos
namespace Vm

variable [VmConfig]

/-- `Next me m p m' o`: a thread of `me` goes from `p` to `o`, and the memory from `m` to
    `m'`. -/
inductive Next (me : SpaceId) (m : Memory) : Pc → Memory → Option Pc → Prop
  -- `PageFault`
  | wait {q : Fault} (hio : (m.entry me q.vpn).io = true) :
      Next me m (.faultIo q) m (some (.faultYield q))
  | present {q : Fault} (hvalid : (m.entry me q.vpn).valid = true) :
      Next me m (.faultIo q) m none
  | load {q : Fault} (hio : (m.entry me q.vpn).io = false)
      (hvalid : (m.entry me q.vpn).valid = false) :
      Next me m (.faultIo q) (m.modifyEntry me q.vpn .setBitIo)
        (some (load me (m.modifyEntry me q.vpn .setBitIo) q))
  | retry {q : Fault} : Next me m (.faultYield q) m (some (.faultIo q))
  | hidden {q : Fault} (had : (m.entry me q.vpn).addrDisk = -1) :
      Next me m (.addrIo q) m (some (.addrYield q))
  | sector {q : Fault} (had : (m.entry me q.vpn).addrDisk ≠ -1) :
      Next me m (.addrIo q) m (some (.readSwap q (m.entry me q.vpn).addrDisk))
  | look {q : Fault} : Next me m (.addrYield q) m (some (.addrIo q))
  | readFile {q : Fault} {f : FileId} {ad : Int} (had : 0 ≤ ad) :
      Next me m (.readFile q f ad) m
        (some (.readDone { q with buffer := (m.files f).readAt q.buffer ad.toNat }))
  | readSwap {q : Fault} {sector : Int} (hs : 0 ≤ sector) (hlt : sector < NUM_SECTORS) :
      Next me m (.readSwap q sector) m
        (some (.readDone { q with buffer := m.swap_disk sector.toNat }))
  | read {q : Fault} : Next me m (.readDone q) m (some (.map q))
  | take {q : Fault} {p : Nat} {rest : List Nat} (hl : m.free_page_list = p :: rest)
      (hfree : (m.tpr p).free = true) :
      Next me m (.map q) ({ m with free_page_list := rest }.modifyFrame p fun _ =>
        { free := false, locked := true, virtualPage := q.vpn, owner := some me })
        (some (.mapped q p))
  | noFree {q : Fault} (hl : m.free_page_list = []) :
      Next me m (.map q) m (some (.search q ((m.i_clock + 1).toNat % NumPhysPages) 0))
  | finish {q : Fault} {p : Nat} (hlocked : (m.tpr p).locked = true)
      (hfree : (m.tpr p).free = false) :
      Next me m (.mapped q p) (((m.fill p q.buffer).modifyEntry me q.vpn (.loaded p)).modifyFrame p
        fun fr => { fr with locked := false }) none
  -- `EvictPage`
  | pass {q : Fault} {loc i : Nat} {b : SpaceId} (hb : (m.tpr loc).owner = some b)
      (hbusy : m.busy loc b = true) :
      Next me m (.search q loc i) (m.modifyEntry b (m.tpr loc).virtualPage .clearBitU)
        (some (.search q ((loc + 1) % NumPhysPages) (i + 1)))
  | around {q : Fault} {loc i : Nat} {b : SpaceId} (hb : (m.tpr loc).owner = some b)
      (hbusy : m.busy loc b = true) :
      Next me m (.search q loc i)
        { m.modifyEntry b (m.tpr loc).virtualPage .clearBitU with i_clock := loc }
        (some (.searchYield q loc (i + 1)))
  | stop {q : Fault} {loc i : Nat} {b : SpaceId} (hb : (m.tpr loc).owner = some b)
      (hd : m.status b ≠ .dead) (hbusy : m.busy loc b = false) :
      Next me m (.search q loc i)
        ({ m.modifyEntry b (m.tpr loc).virtualPage .clearBitValid with
          i_clock := loc }.modifyFrame loc fun fr => { fr with locked := true })
        (some (.evictIo q ⟨loc, b, (m.tpr loc).virtualPage⟩))
  | goOn {q : Fault} {loc i : Nat} :
      Next me m (.searchYield q loc i) m (some (.search q ((loc + 1) % NumPhysPages) i))
  | evictWait {q : Fault} {x : Victim} (hio : (m.entry x.space x.vpn).io = true) :
      Next me m (.evictIo q x) m (some (.evictYield q x))
  | evict {q : Fault} {x : Victim} (hd : m.status x.space ≠ .dead)
      (hio : (m.entry x.space x.vpn).io = false) :
      Next me m (.evictIo q x) (evict me (m.modifyEntry x.space x.vpn .setBitIo) q x).1
        (some (evict me (m.modifyEntry x.space x.vpn .setBitIo) q x).2)
  | evictAgain {q : Fault} {x : Victim} : Next me m (.evictYield q x) m (some (.evictIo q x))
  | writeFile {q : Fault} {x : Victim} {f : FileId} {ad : Int} (had : 0 ≤ ad) :
      Next me m (.writeFile q x f ad) { m with
        files := Function.update m.files f ((m.files f).writeAt (m.frame x.frame) ad.toNat) }
        (some (.wroteFile q x))
  | wroteFile {q : Fault} {x : Victim} (hd : m.status x.space ≠ .dead) :
      Next me m (.wroteFile q x) (m.takeOver me q x) (some (.mapped q x.frame))
  | writeSwap {q : Fault} {x : Victim} {sector : Nat} {addrDisk : Int} {fresh : Bool}
      (hlt : sector < NUM_SECTORS) :
      Next me m (.writeSwap q x sector addrDisk fresh) { m with
        swap_disk := Function.update m.swap_disk sector (m.frame x.frame) }
        (some (.wroteSwap q x sector addrDisk fresh))
  | wroteSwap {q : Fault} {x : Victim} {sector : Nat} {addrDisk : Int} {fresh : Bool}
      (hd : m.status x.space ≠ .dead) :
      Next me m (.wroteSwap q x sector addrDisk fresh)
        ((m.modifyEntry x.space x.vpn (.swapped addrDisk fresh)).takeOver me q x)
        (some (.mapped q x.frame))
  -- `~AddrSpace`
  | destroyFile {b : SpaceId} {i : Nat} {f : FileId} (hlt : i < (m.spaces b).freePageId)
      (hvalid : (m.entry b i).valid = true)
      (hf : (m.spaces b).findMappedFile (i * PageSize) = some f)
      (hM : (m.entry b i).M = true) :
      Next me m (.destroyPage b i) m
        (some (.destroyWrite b i f (m.entry b i).addrDisk (m.entry b i).physicalPage))
  | release {b : SpaceId} {i : Nat} {m' : Memory} (hlt : i < (m.spaces b).freePageId)
      (hvalid : (m.entry b i).valid = true)
      (hnot : (m.spaces b).findMappedFile (i * PageSize) = none ∨ (m.entry b i).M = false)
      (hm' : m.RemovePhysicalToVirtualMapping (m.entry b i).physicalPage = some m') :
      Next me m (.destroyPage b i) (next.passPage m' b i) (some (.destroyPage b (i + 1)))
  | skip {b : SpaceId} {i : Nat} (hlt : i < (m.spaces b).freePageId)
      (hvalid : (m.entry b i).valid = false) :
      Next me m (.destroyPage b i) (next.passPage m b i) (some (.destroyPage b (i + 1)))
  | delete {b : SpaceId} {i : Nat} (hlt : (m.spaces b).freePageId ≤ i) :
      Next me m (.destroyPage b i) { m with status := Function.update m.status b .dead } none
  | destroyWrite {b : SpaceId} {i : Nat} {f : FileId} {ad : Int} {p : Nat} (had : 0 ≤ ad) :
      Next me m (.destroyWrite b i f ad p) { m with
        files := Function.update m.files f ((m.files f).writeAt (m.frame p) ad.toNat) }
        (some (.destroyWrote b i))
  | destroyWrote {b : SpaceId} {i : Nat} {m' : Memory}
      (hm' : m.RemovePhysicalToVirtualMapping (m.entry b i).physicalPage = some m') :
      Next me m (.destroyWrote b i) (next.passPage m' b i) (some (.destroyPage b (i + 1)))

/-- A step of the code is one of the cases. -/
theorem next_cases {me : SpaceId} {m m' : Memory} {p : Pc} {o : Option Pc}
    (hr : next me m p = some (m', o)) : Next me m p m' o := by
  cases p with
  | faultIo q =>
      simp only [next] at hr
      split at hr
      · rename_i hio
        cases hr
        exact .wait hio
      · rename_i hio
        split at hr
        · rename_i hvalid
          cases hr
          exact .present hvalid
        · rename_i hvalid
          cases hr
          exact .load (by simpa using hio) (by simpa using hvalid)
  | faultYield q =>
      cases hr
      exact .retry
  | addrIo q =>
      simp only [next] at hr
      split at hr
      · rename_i had
        cases hr
        exact .hidden had
      · rename_i had
        cases hr
        exact .sector had
  | addrYield q =>
      cases hr
      exact .look
  | readFile q f ad =>
      simp only [next] at hr
      split at hr
      · cases hr
      · cases hr
        exact .readFile (by omega)
  | readSwap q sector =>
      simp only [next] at hr
      split at hr
      · cases hr
      · cases hr
        exact .readSwap (by omega) (by omega)
  | readDone q =>
      cases hr
      exact .read
  | map q =>
      simp only [next] at hr
      split at hr
      · rename_i hl
        split at hr
        · rename_i hfree
          cases hr
          exact .take hl hfree
        · cases hr
      · rename_i hl
        cases hr
        exact .noFree hl
  | mapped q f =>
      simp only [next] at hr
      split at hr
      · rename_i hf
        cases hr
        exact .finish hf.1 (by simpa using hf.2)
      · cases hr
  | search q loc i =>
      simp only [next] at hr
      split at hr
      · cases hr
      · rename_i b hb
        split at hr
        · cases hr
        · rename_i hd
          split at hr
          · rename_i hbusy
            split at hr
            · cases hr
              exact .around hb hbusy
            · cases hr
              exact .pass hb hbusy
          · rename_i hbusy
            cases hr
            exact .stop hb hd (by simpa using hbusy)
  | searchYield q loc i =>
      cases hr
      exact .goOn
  | evictIo q x =>
      simp only [next] at hr
      split at hr
      · cases hr
      · rename_i hd
        split at hr
        · rename_i hio
          cases hr
          exact .evictWait hio
        · rename_i hio
          cases hr
          exact .evict hd (by simpa using hio)
  | evictYield q x =>
      cases hr
      exact .evictAgain
  | writeFile q x f ad =>
      simp only [next] at hr
      split at hr
      · cases hr
      · cases hr
        exact .writeFile (by omega)
  | wroteFile q x =>
      simp only [next] at hr
      split at hr
      · cases hr
      · rename_i hd
        cases hr
        exact .wroteFile hd
  | writeSwap q x sector addrDisk fresh =>
      simp only [next] at hr
      split at hr
      · cases hr
      · cases hr
        exact .writeSwap (by omega)
  | wroteSwap q x sector addrDisk fresh =>
      simp only [next] at hr
      split at hr
      · cases hr
      · rename_i hd
        cases hr
        exact .wroteSwap hd
  -- The file is written only for a page that is mapped and modified.
  | destroyPage b i =>
      simp only [next] at hr
      split at hr
      · rename_i hlt
        split at hr
        · rename_i hvalid
          split at hr
          · cases hr
            rename_i hf hM
            exact .destroyFile hlt hvalid hf hM
          · rename_i hne
            have hnot : (m.spaces b).findMappedFile (i * PageSize) = none ∨
                (m.entry b i).M = false := by
              cases hf : (m.spaces b).findMappedFile (i * PageSize) with
              | none => exact Or.inl rfl
              | some f => exact Or.inr (Bool.eq_false_iff.mpr fun hM => hne f hf hM)
            obtain ⟨m₁, hm₁, he⟩ := Option.map_eq_some_iff.mp hr
            cases he
            exact .release hlt hvalid hnot hm₁
        · rename_i hvalid
          cases hr
          exact .skip hlt (by simpa using hvalid)
      · rename_i hlt
        cases hr
        exact .delete (by omega)
  | destroyWrite b i f ad f' =>
      simp only [next] at hr
      split at hr
      · cases hr
      · cases hr
        exact .destroyWrite (by omega)
  | destroyWrote b i =>
      obtain ⟨m₁, hm₁, he⟩ := Option.map_eq_some_iff.mp hr
      cases he
      exact .destroyWrote hm₁

/-! ## What no step changes -/

/-- All of an address space but its translation table. -/
def Memory.shape (m : Memory) (b : SpaceId) : Nat × List MappedFile × FileId :=
  ((m.spaces b).freePageId, (m.spaces b).mapped_files, (m.spaces b).exec_file)

section Shape

variable {m m' : Memory}

omit [VmConfig] in
theorem freePageId_of_shape (h : m'.shape = m.shape) (b : SpaceId) :
    (m'.spaces b).freePageId = (m.spaces b).freePageId := congrArg Prod.fst (congrFun h b)

omit [VmConfig] in
theorem mapped_files_of_shape (h : m'.shape = m.shape) (b : SpaceId) :
    (m'.spaces b).mapped_files = (m.spaces b).mapped_files :=
  congrArg (fun x => x.2.1) (congrFun h b)

omit [VmConfig] in
theorem exec_file_of_shape (h : m'.shape = m.shape) (b : SpaceId) :
    (m'.spaces b).exec_file = (m.spaces b).exec_file :=
  congrArg (fun x => x.2.2) (congrFun h b)

omit [VmConfig] in
theorem modifyEntry_shape {b : SpaceId} {v : Nat} {f : PageTableEntry → PageTableEntry} :
    (m.modifyEntry b v f).shape = m.shape := by
  funext b'
  obtain ⟨h1, h2, h3⟩ := Memory.modifyEntry_space (m := m) (b := b) (v := v) f b'
  unfold Memory.shape
  rw [h1, h2, h3]

omit [VmConfig] in
theorem takeOver_shape {me : SpaceId} {q : Fault} {x : Victim} :
    (m.takeOver me q x).shape = m.shape := modifyEntry_shape

omit [VmConfig] in
theorem putPageSwap_shape {n : Int} : (m.PutPageSwap n).1.shape = m.shape := by
  unfold Memory.PutPageSwap
  split
  · rfl
  · split
    · rfl
    · rfl

omit [VmConfig] in
theorem swapOut_shape {me : SpaceId} {q : Fault} {x : Victim} {n : Int} {fresh : Bool} :
    (swapOut me m q x n fresh).1.shape = m.shape := by
  have hput := (putPageSwap_shape (m := m.modifyEntry x.space x.vpn (.setAddrDisk (-1)))
    (n := n)).trans modifyEntry_shape
  unfold swapOut
  dsimp only
  split
  · rename_i heq
    rw [heq] at hput
    exact hput
  · rename_i heq
    rw [heq] at hput
    exact (takeOver_shape.trans modifyEntry_shape).trans hput

theorem evict_shape {me : SpaceId} {q : Fault} {x : Victim} :
    (evict me m q x).1.shape = m.shape := by
  unfold evict
  dsimp only
  split
  · split
    · rfl
    · exact takeOver_shape
  · split
    · split
      · exact swapOut_shape
      · exact takeOver_shape
    · exact swapOut_shape

omit [VmConfig] in
theorem remove_shape {p : Nat} (h : m.RemovePhysicalToVirtualMapping p = some m') :
    m'.shape = m.shape := by
  unfold Memory.RemovePhysicalToVirtualMapping at h
  split at h
  · cases h
  · dsimp only at h
    split at h
    · cases h
    · split at h
      · cases h
      · obtain rfl := Option.some.inj h
        exact modifyEntry_shape

omit [VmConfig] in
theorem passPage_shape {b : SpaceId} {i : Nat} : (next.passPage m b i).shape = m.shape := by
  unfold next.passPage Memory.ReleasePageSwap
  dsimp only
  split
  · rfl
  · rfl

/-- The pages, the mapped files and the executable file of an address space stay. -/
theorem next_shape {me : SpaceId} {p : Pc} {o : Option Pc} (hr : Next me m p m' o) :
    m'.shape = m.shape := by
  cases hr with
  | load | pass | around | stop | wroteFile => exact modifyEntry_shape
  | @finish q f hlocked hfree => exact modifyEntry_shape (m := m.fill f q.buffer)
  | evict hd hio => exact evict_shape.trans modifyEntry_shape
  | wroteSwap hd => exact modifyEntry_shape.trans modifyEntry_shape
  | release hlt hvalid _ hm₁ => exact passPage_shape.trans (remove_shape hm₁)
  | skip hlt hvalid => exact passPage_shape
  | destroyWrote hm₁ => exact passPage_shape.trans (remove_shape hm₁)
  | _ => rfl

/-- What may be done with a page: it is read, it is written. -/
def Memory.rights (m : Memory) (b : SpaceId) (v : Nat) : Bool × Bool :=
  ((m.entry b v).readAllowed, (m.entry b v).writeAllowed)

omit [VmConfig] in
theorem rights_modifyEntry {b : SpaceId} {v : Nat} {f : PageTableEntry → PageTableEntry}
    (hread : ∀ e, (f e).readAllowed = e.readAllowed)
    (hwrite : ∀ e, (f e).writeAllowed = e.writeAllowed) :
    (m.modifyEntry b v f).rights = m.rights := by
  funext b' v'
  unfold Memory.rights
  rw [Memory.field_modifyEntry PageTableEntry.readAllowed hread,
    Memory.field_modifyEntry PageTableEntry.writeAllowed hwrite]

omit [VmConfig] in
theorem rights_takeOver {me : SpaceId} {q : Fault} {x : Victim} :
    (m.takeOver me q x).rights = m.rights :=
  rights_modifyEntry (f := .clearBitIo) (fun _ => rfl) fun _ => rfl

omit [VmConfig] in
theorem rights_swapped {b : SpaceId} {v : Nat} {ad : Int} {fresh : Bool} :
    (m.modifyEntry b v (.swapped ad fresh)).rights = m.rights := by
  apply rights_modifyEntry
  · intro e
    cases fresh
    · rfl
    · rfl
  · intro e
    cases fresh
    · rfl
    · rfl

omit [VmConfig] in
theorem rights_putPageSwap {n : Int} : (m.PutPageSwap n).1.rights = m.rights := by
  unfold Memory.PutPageSwap
  split
  · rfl
  · split
    · rfl
    · rfl

omit [VmConfig] in
theorem rights_swapOut {me : SpaceId} {q : Fault} {x : Victim} {n : Int} {fresh : Bool} :
    (swapOut me m q x n fresh).1.rights = m.rights := by
  have hhide : (m.modifyEntry x.space x.vpn (.setAddrDisk (-1))).rights = m.rights :=
    rights_modifyEntry (f := .setAddrDisk (-1)) (fun _ => rfl) fun _ => rfl
  have hput := (rights_putPageSwap (m := m.modifyEntry x.space x.vpn (.setAddrDisk (-1)))
    (n := n)).trans hhide
  unfold swapOut
  dsimp only
  split
  · rename_i heq
    rw [heq] at hput
    exact hput
  · rename_i heq
    rw [heq] at hput
    exact (rights_takeOver.trans rights_swapped).trans hput

theorem rights_evict {me : SpaceId} {q : Fault} {x : Victim} :
    (evict me m q x).1.rights = m.rights := by
  unfold evict
  dsimp only
  split
  · split
    · rfl
    · exact rights_takeOver
  · split
    · split
      · exact rights_swapOut
      · exact rights_takeOver
    · exact rights_swapOut

omit [VmConfig] in
theorem rights_remove {p : Nat} (h : m.RemovePhysicalToVirtualMapping p = some m') :
    m'.rights = m.rights := by
  unfold Memory.RemovePhysicalToVirtualMapping at h
  split at h
  · cases h
  · dsimp only at h
    split at h
    · cases h
    · split at h
      · cases h
      · obtain rfl := Option.some.inj h
        exact rights_modifyEntry (f := .clearBitValid) (fun _ => rfl) fun _ => rfl

omit [VmConfig] in
theorem rights_passPage {b : SpaceId} {i : Nat} : (next.passPage m b i).rights = m.rights := by
  unfold next.passPage Memory.ReleasePageSwap
  dsimp only
  split
  · rfl
  · rfl

/-- The rights of the pages stay. -/
theorem next_rights {me : SpaceId} {p : Pc} {o : Option Pc} (hr : Next me m p m' o) :
    m'.rights = m.rights := by
  cases hr with
  | load => exact rights_modifyEntry (f := .setBitIo) (fun _ => rfl) fun _ => rfl
  | pass => exact rights_modifyEntry (f := .clearBitU) (fun _ => rfl) fun _ => rfl
  | around => exact rights_modifyEntry (f := .clearBitU) (fun _ => rfl) fun _ => rfl
  | stop => exact rights_modifyEntry (f := .clearBitValid) (fun _ => rfl) fun _ => rfl
  | wroteFile => exact rights_takeOver
  | @finish q f hlocked hfree =>
    exact rights_modifyEntry (m := m.fill f q.buffer) (f := .loaded f) (fun _ => rfl) fun _ => rfl
  | evict hd hio =>
    exact rights_evict.trans (rights_modifyEntry (f := .setBitIo) (fun _ => rfl) fun _ => rfl)
  | wroteSwap hd => exact rights_takeOver.trans rights_swapped
  | release hlt hvalid _ hm₁ => exact rights_passPage.trans (rights_remove hm₁)
  | skip hlt hvalid => exact rights_passPage
  | destroyWrote hm₁ => exact rights_passPage.trans (rights_remove hm₁)
  | _ => rfl

end Shape

/-! ## The accesses of user code -/

/-- An access sets bits of a valid entry, and goes to the frame of the page. -/
theorem translate_cases {m m' : Memory} {me : SpaceId} {virtAddr size a : Nat} {writing : Bool}
    (h : m.Translate me virtAddr size writing = some (m', a)) :
    m' = m.modifyEntry me (virtAddr / PageSize) (.accessed writing) ∧
      a = (m.entry me (virtAddr / PageSize)).physicalPage * PageSize + virtAddr % PageSize ∧
      (m.entry me (virtAddr / PageSize)).valid = true ∧ virtAddr % size = 0 := by
  unfold Memory.Translate at h
  dsimp only at h
  split at h
  · cases h
  · rename_i hsize
    split at h
    · cases h
    · split at h
      · cases h
      · rename_i hvalid
        cases h
        refine ⟨rfl, rfl, ?_, by omega⟩
        simp only [not_or, not_not] at hvalid
        exact hvalid.1

theorem readMem_cases {m m' : Memory} {me : SpaceId} {virtAddr size : Nat} {value : BitVec 32}
    (h : m.ReadMem me virtAddr size = some (m', value)) :
    ∃ a, m.Translate me virtAddr size false = some (m', a) ∧
      (size = 1 ∨ size = 2 ∨ size = 4) ∧
      value = readValue size fun j => m'.mainMemory (a + j) := by
  unfold Memory.ReadMem at h
  split at h
  · rename_i hsize
    obtain ⟨⟨m₁, a⟩, hm₁, he⟩ := Option.map_eq_some_iff.mp h
    cases he
    exact ⟨a, hm₁, hsize, rfl⟩
  · cases h

theorem writeMem_cases {m m' : Memory} {me : SpaceId} {virtAddr size : Nat}
    {value : BitVec 32} (h : m.WriteMem me virtAddr size value = some m') :
    ∃ m₁ a, m.Translate me virtAddr size true = some (m₁, a) ∧
      (size = 1 ∨ size = 2 ∨ size = 4) ∧
      m' = { m₁ with
        mainMemory := fun j =>
          if a ≤ j ∧ j < a + size then valueByte value (j - a) else m₁.mainMemory j } := by
  unfold Memory.WriteMem at h
  split at h
  · rename_i hsize
    obtain ⟨⟨m₁, a⟩, hm₁, rfl⟩ := Option.map_eq_some_iff.mp h
    exact ⟨m₁, a, hm₁, hsize, rfl⟩
  · cases h

/-! ## The system -/

variable {T : Threads}

/-- The step of the system, one case for each move. -/
inductive Step (T : Threads) (s : System) : Move → System → Prop
  | switch {t : ThreadId} (hsw : s.maySwitch) : Step T s (.switch t) { s with current := t }
  | load {virtAddr size : Nat} {m' : Memory} {value : BitVec 32} (hu : s.inUserCode T)
      (hm' : s.memory.ReadMem (T.process s.current) virtAddr size = some (m', value)) :
      Step T s (.load virtAddr size) { s with memory := m' }
  | store {virtAddr size : Nat} {m' : Memory} {value : BitVec 32} (hu : s.inUserCode T)
      (hm' : s.memory.WriteMem (T.process s.current) virtAddr size value = some m') :
      Step T s (.store virtAddr size value) { s with memory := m' }
  | fault {vpn : Nat} {buffer : Page} (hu : s.inUserCode T)
      (hvalid : (s.memory.entry (T.process s.current) vpn).valid = false)
      (hallowed : (s.memory.entry (T.process s.current) vpn).readAllowed ∨
        (s.memory.entry (T.process s.current) vpn).writeAllowed) :
      Step T s (.fault vpn buffer)
        { s with pc := Function.update s.pc s.current (some (.faultIo ⟨vpn, buffer⟩)) }
  | destroy {b : SpaceId} (hmem : s.current ∈ T.all) (hnone : s.pc s.current = none)
      (hlive : s.memory.status b = .live) (hended : s.ended T b) :
      Step T s (.destroy b) { s with
        memory := { s.memory with status := Function.update s.memory.status b (.dying 0) }
        pc := Function.update s.pc s.current (some (.destroyPage b 0)) }
  | advance {p : Pc} {m' : Memory} {o : Option Pc} (hp : s.pc s.current = some p)
      (hr : Next (T.process s.current) s.memory p m' o) :
      Step T s .advance { s with memory := m', pc := Function.update s.pc s.current o }

theorem step_cases {s s' : System} {move : Move} (h : step T s move = some s') :
    Step T s move s' := by
  cases move with
  | switch t =>
      simp only [step] at h
      split at h
      · rename_i hsw
        cases h
        exact .switch hsw
      · cases h
  | load virtAddr size =>
      simp only [step] at h
      split at h
      · rename_i hu
        obtain ⟨⟨m', value⟩, hm', rfl⟩ := Option.map_eq_some_iff.mp h
        exact .load hu hm'
      · cases h
  | store virtAddr size value =>
      simp only [step] at h
      split at h
      · rename_i hu
        obtain ⟨m', hm', rfl⟩ := Option.map_eq_some_iff.mp h
        exact .store hu hm'
      · cases h
  | fault vpn buffer =>
      simp only [step] at h
      split at h
      · rename_i hu
        cases h
        exact .fault hu.1 (by simpa using hu.2.1) hu.2.2
      · cases h
  | destroy b =>
      simp only [step] at h
      split at h
      · rename_i hu
        cases h
        exact .destroy hu.1 (by simpa using hu.2.1) hu.2.2.1 hu.2.2.2
      · cases h
  | advance =>
      simp only [step] at h
      obtain ⟨p, hp, h⟩ := Option.bind_eq_some_iff.mp h
      obtain ⟨⟨m', o⟩, hr, rfl⟩ := Option.map_eq_some_iff.mp h
      exact .advance hp (next_cases hr)

omit [VmConfig] in
theorem System.inUserCode_iff {s : System} :
    s.inUserCode T ↔ s.current ∈ T.all ∧ s.pc s.current = none ∧
      s.memory.status (T.process s.current) = .live := by
  simp [System.inUserCode]

end Vm
end Nachos
