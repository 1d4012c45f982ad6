import JyyOs.Uproc.Vma

/-!
uproc.c: the mapped-page list, kmmap, the copying done by kfork, page_fault and
destroy_mapped_pages. The list of areas of a task keeps its own head and tail, so the two
assignments of fork_copying_vme_pages that repeat what insert_vme_node did are left out.
-/
namespace Uproc

open Hoare

def protNone : Nat := 1
def protRead : Nat := 2
def protWrite : Nat := 4
def mapPrivate : Nat := 2
def mapUnmap : Nat := 3

def newMappedPage (va pa : Nat) : Kern Nat := do
  let node ← allocNode
  modify fun s => s.setNode node { va := va, pa := pa, next := 0 }
  return node

def insertMapPage (task pg : Nat) : Kern Unit :=
  modify fun s =>
    let t := s.tasks task
    (s.setNode pg { s.nodes pg with next := t.mappedPageHead }).setTask task
      { t with mappedPageHead := pg }

def unlinkMapPage (task prev next : Nat) : Kern Unit :=
  modify fun s =>
    if prev = 0 then s.setTask task { s.tasks task with mappedPageHead := next }
    else s.setNode prev { s.nodes prev with next := next }

def deleteMapPageLoop (task va : Nat) : Nat → Nat → Nat → Kern Unit
  | 0, _, _ => throw .endless
  | fuel + 1, prev, cur =>
    if cur = 0 then throw .panic
    else do
      let s ← get
      if (s.nodes cur).va = va then
        unlinkMapPage task prev (s.nodes cur).next
        freeNode cur
      else deleteMapPageLoop task va fuel cur (s.nodes cur).next

def deleteMapPage (task va : Nat) : Kern Unit := do
  let s ← get
  deleteMapPageLoop task va s.rounds 0 (s.tasks task).mappedPageHead

def findMappedPageLoop (va : Nat) : Nat → Nat → Kern Nat
  | 0, _ => throw .endless
  | fuel + 1, cur =>
    if cur = 0 then return 0
    else do
      let s ← get
      if (s.nodes cur).va = va then return cur
      else findMappedPageLoop va fuel (s.nodes cur).next

def findMappedPage (task va : Nat) : Kern Nat := do
  let s ← get
  findMappedPageLoop va s.rounds (s.tasks task).mappedPageHead

def convertMmapProtToVmProt (prot : Nat) : Nat :=
  let vmProt := 0
  let vmProt := if prot &&& protRead ≠ 0 then vmProt ||| mmapRead else vmProt
  let vmProt := if prot &&& protWrite ≠ 0 then vmProt ||| mmapWrite else vmProt
  if prot = protNone then mmapNone else vmProt

def pgmap (task va pa prot : Nat) (cowCnt : Bool) : Kern Unit := do
  let page ← newMappedPage va pa
  runIf (cowCnt = true) (incCowCnt pa)
  insertMapPage task page
  map task va pa (convertMmapProtToVmProt prot)

def pgunmap (task va : Nat) : Kern Unit := do
  deleteMapPage task va
  map task va 0 mmapNone

def deleteMappingLoop (task endAddr : Nat) : Nat → Nat → Kern Unit
  | 0, _ => throw .endless
  | fuel + 1, cur =>
    if cur < endAddr then do
      let pg ← findMappedPage task cur
      runIf (pg ≠ 0) (pgunmap task cur)
      deleteMappingLoop task endAddr fuel (cur + pgsize)
    else return

def deleteMapping (task startAddr endAddr : Nat) : Kern Unit := do
  let s ← get
  deleteMappingLoop task endAddr s.rounds startAddr

def kmunmap (task addr : Nat) (length prot : Int) : Kern Nat := do
  stopUnless (prot = protNone) .panic
  let startAddr := roundDown addr
  let endAddr := roundUp (addLength addr length)
  spinLock (.vme task)
  let t ← getTask task
  spinUnlock (.vme task)
  if (findVmeNode t.vmAreas startAddr endAddr).isSome then do
    spinLock (.mp task)
    deleteMapping task startAddr endAddr
    spinUnlock (.mp task)
    return 0
  else return 0

def insertArea (task : Nat) (node : VmArea) : Kern Bool := do
  let s ← get
  let t := s.tasks task
  match insertVmeNode t.vmAreas node with
  | none => return false
  | some areas =>
    set (s.setTask task { t with vmAreas := areas })
    return true

def newArea (task addr : Nat) (length prot flags : Int) : Kern VmArea := do
  let t ← getTask task
  match newVmeNode t.vmAreas addr length prot flags with
  | none => throw .panic
  | some node => return node

def kmmap (task addr : Nat) (length prot flags : Int) : Kern Nat := do
  stopUnless (task ≠ 0) .panic
  stopUnless (0 < length) .panic
  if flags = mapUnmap then kmunmap task addr length prot
  else
    let node ← newArea task addr length prot flags
    spinLock (.vme task)
    let success ← insertArea task node
    stopUnless (success = true) .panic
    spinUnlock (.vme task)
    return node.vmStart

/-- One round of the loop of fork_cow_mapping, up to `cur = cur->next`. -/
def forkCowPage (task cur : Nat) : Kern Unit := do
  let s ← get
  let cnt ← getCowCnt (s.nodes cur).pa
  if cnt = 0 then
    let va := (s.nodes cur).va
    let pa ← allocPage
    spinLock (.vme task)
    let t ← getTask task
    spinUnlock (.vme task)
    match findVmeNode t.vmAreas va (u64 (va + pgsize)) with
    | none => throw .null
    | some vma =>
      if vma.vmProt &&& protWrite ≠ 0 ∧ vma.vmFlags &&& mapPrivate ≠ 0 then
        pgunmap task va
        pgmap task va pa (vma.vmProt &&& (255 - protWrite)) true
      else return
  else return

def forkCowMappingLoop (task : Nat) : Nat → Nat → Kern Unit
  | 0, _ => throw .endless
  | fuel + 1, cur =>
    if cur = 0 then return
    else do
      forkCowPage task cur
      let s ← get
      forkCowMappingLoop task fuel (s.nodes cur).next

def forkCowMapping (task : Nat) : Kern Unit := do
  spinLock (.mp task)
  let s ← get
  forkCowMappingLoop task s.rounds (s.tasks task).mappedPageHead
  spinUnlock (.mp task)

def forkCopyingVmePagesLoop (newTask : Nat) : List VmArea → Kern Unit
  | [] => return
  | cur :: next => do
    let length := toInt32 ((cur.vmEnd : Int) - cur.vmStart)
    let newCur ← newArea newTask cur.vmStart length cur.vmProt cur.vmFlags
    let _ ← insertArea newTask newCur
    forkCopyingVmePagesLoop newTask next

/-- The assignments of vm_area_head and vm_area_tail are left to insert_vme_node. They differ from it
    for an area of 2^31 bytes alone, and VmaList.forkCopyingVmePages has them. -/
def forkCopyingVmePages (task newTask : Nat) : Kern Unit := do
  let s ← get
  if (s.tasks task).vmAreas = [] then
    set (s.setTask newTask { s.tasks newTask with vmAreas := [] })
  else
    spinLock (.vme task)
    forkCopyingVmePagesLoop newTask (s.tasks task).vmAreas
    spinUnlock (.vme task)

/-- One round of the loop of fork_coppying_new_mapped_pages, up to `cur = cur->next`. -/
def forkCopyPage (task newTask cur : Nat) : Kern Unit := do
  spinLock (.vme task)
  let s ← get
  let page := s.nodes cur
  match findVmeNode (s.tasks task).vmAreas page.va (u64 (page.va + pgsize)) with
  | none => throw .null
  | some vma =>
    pgmap newTask page.va page.pa vma.vmProt true
    spinUnlock (.vme task)

def forkCoppyingLoop (task newTask : Nat) : Nat → Nat → Kern Unit
  | 0, _ => throw .endless
  | fuel + 1, cur =>
    if cur = 0 then return
    else do
      forkCopyPage task newTask cur
      let s ← get
      forkCoppyingLoop task newTask fuel (s.nodes cur).next

def forkCoppyingNewMappedPages (task newTask : Nat) : Kern Unit := do
  spinLock (.mp task)
  let s ← get
  let head := (s.tasks task).mappedPageHead
  if head = 0 then
    set (s.setTask newTask { s.tasks newTask with mappedPageHead := 0 })
  else
    forkCoppyingLoop task newTask s.rounds head
    spinUnlock (.mp task)

def destroyMappedPagesLoop : Nat → Nat → Kern Unit
  | 0, _ => throw .endless
  | fuel + 1, cur =>
    if cur = 0 then return
    else do
      let s ← get
      let next := (s.nodes cur).next
      decCowCnt (s.nodes cur).pa
      let cnt ← getCowCnt (s.nodes cur).pa
      runIf (cnt = 0) (freePage (s.nodes cur).pa)
      freeNode cur
      destroyMappedPagesLoop fuel next

def destroyMappedPages (task : Nat) : Kern Unit := do
  let s ← get
  destroyMappedPagesLoop s.rounds (s.tasks task).mappedPageHead

def copyPage (pa : Nat) (bytes : Nat → Nat) : Kern Unit := do
  stopUnless (pa ≠ 0) .null
  modify fun s => { s with phys := Function.update s.phys pa bytes }

/-- `memcpy(pa, _init, _init_len)` for the first page of the area. An _init longer than a page goes
    on in cells of the page that nothing reads, in the code in the next frame. -/
def copyInitCode (va pa : Nat) : Kern Unit := do
  let s ← get
  if va = areaStart then
    copyPage pa fun i => s.initCode.getD i (s.phys pa i)
  else return

def faultNewArea (task va pa : Nat) : Kern Unit := do
  spinUnlock (.vme task)
  let _ ← kmmap task va pgsize (protRead ||| protWrite : Nat) mapPrivate
  spinLock (.mp task)
  pgmap task va pa (protRead ||| protWrite) false
  spinUnlock (.mp task)

def faultNewPage (task va pa : Nat) (vma : VmArea) : Kern Unit := do
  spinLock (.mp task)
  pgmap task va pa vma.vmProt false
  spinUnlock (.mp task)
  spinUnlock (.vme task)

/-- page_fault on a mapped page. `the_page` is read again after pgunmap freed it. -/
def faultCopy (task va pa thePage : Nat) (vma : Option VmArea) : Kern Unit := do
  spinLock (.mp task)
  let s ← get
  stopUnless ((s.nodes thePage).pa ≠ 0) .null
  copyPage pa (s.phys (s.nodes thePage).pa)
  pgunmap task va
  match vma with
  | none => throw .null
  | some vma =>
    pgmap task va pa vma.vmProt false
    spinUnlock (.mp task)
    let s ← get
    decCowCnt (s.nodes thePage).pa
    let cnt ← getCowCnt (s.nodes thePage).pa
    runIf (cnt = 0) (freePage (s.nodes thePage).pa)
    spinUnlock (.vme task)

def pageFault (ref : Nat) : Kern Unit := do
  let s ← get
  let task := s.currentTask
  let pa ← allocPage
  let va := roundDown ref
  if InArea va then
    copyInitCode va pa
    spinLock (.vme task)
    let thePage ← findMappedPage task va
    let t ← getTask task
    let vma := findVmeNode t.vmAreas va (u64 (va + pgsize))
    if thePage = 0 then
      match vma with
      | none => faultNewArea task va pa
      | some vma => faultNewPage task va pa vma
    else faultCopy task va pa thePage vma
  else return

end Uproc
