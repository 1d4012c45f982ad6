import JyyOs.Uproc.Kernel

/-!
The areas of a task, a list sorted by address. insert_vme_node returns `none` for false and
get_suitable_addr `none` for its assertion.
-/
namespace Uproc

def suitableLoop (length : Int) : List VmArea → Nat → Nat → Nat × Nat
  | [], addr, endAddr => (addr, endAddr)
  | cur :: next, addr, endAddr =>
    if endAddr ≤ cur.vmStart then (addr, endAddr)
    else if cur.vmEnd ≤ addr then suitableLoop length next addr endAddr
    else suitableLoop length next cur.vmEnd (roundUp (addLength cur.vmEnd length))

def getSuitableAddr (areas : List VmArea) (startAddr : Nat) (length : Int) : Option Nat :=
  if areas = [] then some startAddr
  else
    let (addr, endAddr) := suitableLoop length areas startAddr
      (roundUp (addLength startAddr length))
    if endAddr ≤ areaEnd then some addr else none

def newVmeNode (areas : List VmArea) (addr : Nat) (length prot flags : Int) : Option VmArea :=
  match getSuitableAddr areas (roundUp addr) length with
  | none => none
  | some rightAddr =>
    some
      { vmStart := rightAddr
        vmEnd := roundUp (addLength rightAddr length)
        vmProt := (prot % 256).toNat
        vmFlags := (flags % 256).toNat }

def insertVmeNode : List VmArea → VmArea → Option (List VmArea)
  | [], node => some [node]
  | cur :: next, node =>
    if node.vmEnd ≤ cur.vmStart then some (node :: cur :: next)
    else if cur.vmEnd ≤ node.vmStart then (insertVmeNode next node).map (cur :: ·)
    else none

def findVmeNode : List VmArea → Nat → Nat → Option VmArea
  | [], _, _ => none
  | cur :: next, addr, endAddr =>
    if cur.vmStart ≤ addr ∧ endAddr ≤ cur.vmEnd then some cur
    else if cur.vmEnd ≤ addr then findVmeNode next addr endAddr
    else none

end Uproc
