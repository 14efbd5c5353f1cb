import Mathlib.Tactic.Linarith

/-!
# Addresses of a node

A node has at most one verified address for each protocol, and it may have others that are
not verified. The times and the class of an address are left out, and so is its pass key.
-/

namespace NeoLoader.NodeAddresses

structure CNodeAddress where
  /-- `GetProtocol`, zero where it is not valid. -/
  protocol : ℕ
  /-- The host. -/
  ip : ℕ
  /-- `GetPort`. -/
  port : ℕ
  /-- `GetAuxPort`. -/
  auxPort : ℕ
  /-- `GetAssistent`. -/
  assistent : Option ℕ
  /-- `IsVerifyed`. -/
  verifyed : Bool
  deriving DecidableEq, Repr

section Update

variable (address : CNodeAddress)

/-- `Compare` of two addresses, if it ignores the port. -/
def sameHost (entry : CNodeAddress) : Bool :=
  address.protocol = entry.protocol ∧ address.ip = entry.ip

/-- What `UpdateAddress` does with an address that is known. -/
def mergeAddress (entry : CNodeAddress) : CNodeAddress :=
  let entry :=
    if address.verifyed then { entry with verifyed := true, assistent := address.assistent }
    else entry
  if address.port = entry.port then entry
  else if address.verifyed then { entry with auxPort := entry.port, port := address.port }
  else { entry with auxPort := address.port }

/-- The loop of `UpdateAddress`, and whether the address is known. -/
def visitAddresses : List CNodeAddress → List CNodeAddress × Bool
  | [] => ([], false)
  | entry :: entries =>
    if address.protocol ≠ entry.protocol then
      (entry :: (visitAddresses entries).1, (visitAddresses entries).2)
    else if sameHost address entry then (mergeAddress address entry :: entries, true)
    else if entry.verifyed = false then visitAddresses entries
    else (entry :: (visitAddresses entries).1, (visitAddresses entries).2)

/-- Put an address before the others of its protocol. -/
def insertAddress : List CNodeAddress → List CNodeAddress
  | [] => [address]
  | entry :: entries =>
    if address.protocol = entry.protocol then address :: entry :: entries
    else entry :: insertAddress entries

/-- Keep the first address of a protocol. -/
def keepFirst : List CNodeAddress → List CNodeAddress
  | [] => []
  | entry :: entries =>
    if address.protocol = entry.protocol then
      entry :: entries.filter fun other => address.protocol ≠ other.protocol
    else entry :: keepFirst entries

def updateAddress (entries : List CNodeAddress) : List CNodeAddress :=
  if address.protocol = 0 then entries
  else
    let visited := visitAddresses address entries
    let entries := if visited.2 then visited.1 else insertAddress address visited.1
    if address.verifyed then keepFirst address entries else entries

theorem mergeAddress_verifyed {entry : CNodeAddress} (haddress : address.verifyed = false) :
    (mergeAddress address entry).verifyed = entry.verifyed := by
  unfold mergeAddress
  rw [haddress]
  dsimp only [Bool.false_eq_true]
  split_ifs <;> simp_all

variable {entries : List CNodeAddress}

/-- The loop makes no address verified by one that is not. -/
theorem visitAddresses_verifyed (haddress : address.verifyed = false)
    (hentries : ∀ entry ∈ entries, entry.verifyed = false) :
    ∀ entry ∈ (visitAddresses address entries).1, entry.verifyed = false := by
  induction entries with
  | nil => simp [visitAddresses]
  | cons first entries ih =>
    rw [List.forall_mem_cons] at hentries
    have hrest := ih hentries.2
    unfold visitAddresses
    split_ifs
    · exact List.forall_mem_cons.mpr ⟨hentries.1, hrest⟩
    · refine List.forall_mem_cons.mpr ⟨?_, hentries.2⟩
      rw [mergeAddress_verifyed address haddress]
      exact hentries.1
    · exact hrest
    · exact List.forall_mem_cons.mpr ⟨hentries.1, hrest⟩

/-- An address that was put in is the new one or an old one. -/
theorem mem_insertAddress {entry : CNodeAddress}
    (h : entry ∈ insertAddress address entries) : entry = address ∨ entry ∈ entries := by
  induction entries with
  | nil => simpa [insertAddress] using h
  | cons first entries ih =>
    unfold insertAddress at h
    split_ifs at h
    · exact List.mem_cons.mp h
    · rcases List.mem_cons.mp h with rfl | h
      · exact Or.inr List.mem_cons_self
      · exact (ih h).imp_right (List.mem_cons_of_mem _)

/-- An address that is not verified makes none verified. -/
theorem updateAddress_verifyed (haddress : address.verifyed = false)
    (hentries : ∀ entry ∈ entries, entry.verifyed = false) :
    ∀ entry ∈ updateAddress address entries, entry.verifyed = false := by
  have hvisited := visitAddresses_verifyed address haddress hentries
  intro entry hentry
  unfold updateAddress at hentry
  simp only [haddress, Bool.false_eq_true, if_false] at hentry
  split_ifs at hentry
  · exact hentries entry hentry
  · exact hvisited entry hentry
  · rcases mem_insertAddress address hentry with rfl | hentry
    · exact haddress
    · exact hvisited entry hentry

end Update

end NeoLoader.NodeAddresses
