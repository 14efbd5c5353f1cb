import NeoLoader.NodeAddresses

/-!
# Runs of address changes of a node

The addresses of a protocol are changed by updates, and when a node is loaded they are put in as they come. An
update counts on at most one verified and at most one other address, the verified one behind the other one.
-/

namespace NeoLoader.NodeAddressRuns

open NodeAddresses hiding insertAddress

/-- `CompareTo` of two addresses. -/
def compareTo (Address entry : CNodeAddress) : Bool :=
  entry.protocol = Address.protocol ∧ entry.port = Address.port ∧ entry.ip = Address.ip

def insertAddress (Address : CNodeAddress) (entries : List CNodeAddress) : List CNodeAddress :=
  entries ++ [Address]

def removeAddress (Address : CNodeAddress) (entries : List CNodeAddress) : List CNodeAddress :=
  entries.eraseP (compareTo Address)

/-- A call that changes the addresses of a node. -/
inductive AddressOp where
  /-- `UpdateAddress`. -/
  | update (Address : CNodeAddress)
  /-- `InsertAddress`, when the node is loaded. -/
  | insert (Address : CNodeAddress)
  /-- `RemoveAddress`. -/
  | remove (Address : CNodeAddress)

/-- The addresses after a call. -/
def AddressOp.apply : AddressOp → List CNodeAddress → List CNodeAddress
  | .update Address, entries => updateAddress Address entries
  | .insert Address, entries => insertAddress Address entries
  | .remove Address, entries => removeAddress Address entries

/-- The addresses of a protocol. -/
def ofProtocol (P : ℕ) (entries : List CNodeAddress) : List CNodeAddress :=
  entries.filter fun entry => entry.protocol = P

/-- Of some addresses at most one is verified and at most one is not. -/
def OneOfEach (entries : List CNodeAddress) : Prop :=
  entries.countP (fun entry => entry.verifyed) ≤ 1 ∧ entries.countP (fun entry => !entry.verifyed) ≤ 1

/-- A verified address is the only one that is left for its protocol. -/
def OnlyLeft (Address : CNodeAddress) (entries : List CNodeAddress) : Prop :=
  ∃ entry, ofProtocol Address.protocol entries = [entry] ∧ compareTo Address entry = true ∧ entry.verifyed = true

/-- What is expected of a call. -/
def OpRight (entries : List CNodeAddress) (op : AddressOp) : Prop :=
  (∀ P, OneOfEach (ofProtocol P (op.apply entries))) ∧
    match op with
    | .update Address => Address.protocol ≠ 0 → Address.verifyed = true → OnlyLeft Address (op.apply entries)
    | _ => True

/-- All calls do what is expected of them. -/
def RunRight : List CNodeAddress → List AddressOp → Prop
  | _, [] => True
  | entries, op :: ops => OpRight entries op ∧ RunRight (op.apply entries) ops

/-- The first address is a verified one of another host, and a known one of the host is behind it. -/
def Masked (Address : CNodeAddress) (range : List CNodeAddress) : Prop :=
  ∃ first ∈ range.head?, first.verifyed = true ∧ sameHost Address first = false ∧
    ∃ entry ∈ range, sameHost Address entry = true

/-- The condition of a call: an address that is put in is the first one of its kind for its protocol, and the
known one of a verified address is not behind another verified one. -/
def OpOk (entries : List CNodeAddress) : AddressOp → Prop
  | .update Address => Address.protocol ≠ 0 → Address.verifyed = true →
      ¬ Masked Address (ofProtocol Address.protocol entries)
  | .insert Address => ∀ entry ∈ ofProtocol Address.protocol entries, entry.verifyed ≠ Address.verifyed
  | .remove _ => True

/-- All calls meet the condition. -/
def RunOk : List CNodeAddress → List AddressOp → Prop
  | _, [] => True
  | entries, op :: ops => OpOk entries op ∧ RunOk (op.apply entries) ops

section Protocols

variable {Address : CNodeAddress} {P : ℕ}

@[simp] theorem mergeAddress_protocol (Address entry : CNodeAddress) :
    (mergeAddress Address entry).protocol = entry.protocol := by
  unfold mergeAddress
  dsimp only
  split_ifs <;> rfl

theorem ofProtocol_cons (P : ℕ) (entry : CNodeAddress) (entries : List CNodeAddress) : ofProtocol P (entry :: entries) =
      if entry.protocol = P then entry :: ofProtocol P entries else ofProtocol P entries := by
  simp [ofProtocol, List.filter_cons]

/-- The loop leaves the addresses of other protocols. -/
theorem visitAddresses_other (h : P ≠ Address.protocol) (entries : List CNodeAddress) :
    ofProtocol P (visitAddresses Address entries).1 = ofProtocol P entries := by
  induction entries with
  | nil => rfl
  | cons entry entries ih =>
    rw [visitAddresses]
    split_ifs with hprotocol hhost hverifyed
    · simp [ofProtocol_cons, ih]
    · have hne : entry.protocol ≠ P := fun heq => h (by rw [← heq, not_not.mp hprotocol])
      simp [ofProtocol_cons, hne]
    · have hne : entry.protocol ≠ P := fun heq => h (by rw [← heq, not_not.mp hprotocol])
      simp [ofProtocol_cons, hne, ih]
    · simp [ofProtocol_cons, ih]

/-- The loop goes over the addresses of its protocol only. -/
theorem visitAddresses_ofProtocol (Address : CNodeAddress) (entries : List CNodeAddress) :
    ofProtocol Address.protocol (visitAddresses Address entries).1 =
        (visitAddresses Address (ofProtocol Address.protocol entries)).1 ∧
      (visitAddresses Address entries).2 = (visitAddresses Address (ofProtocol Address.protocol entries)).2 := by
  induction entries with
  | nil => exact ⟨rfl, rfl⟩
  | cons entry entries ih =>
    rw [ofProtocol_cons]
    by_cases hprotocol : entry.protocol = Address.protocol
    · rw [if_pos hprotocol, visitAddresses, visitAddresses, if_neg (not_not.mpr hprotocol.symm),
        if_neg (not_not.mpr hprotocol.symm)]
      split_ifs
      · simp [ofProtocol_cons, hprotocol]
      · exact ih
      · simp [ofProtocol_cons, hprotocol, ih.1, ih.2]
    · rw [if_neg hprotocol, visitAddresses, if_pos (Ne.symm hprotocol)]
      simp [ofProtocol_cons, hprotocol, ih.1, ih.2]

/-- An address is put in before the others of its protocol. -/
theorem insertAddress_ofProtocol (Address : CNodeAddress) (entries : List CNodeAddress) :
    ofProtocol P (NodeAddresses.insertAddress Address entries) =
      if Address.protocol = P then Address :: ofProtocol P entries else ofProtocol P entries := by
  induction entries with
  | nil => simp [NodeAddresses.insertAddress, ofProtocol_cons]
  | cons entry entries ih =>
    rw [NodeAddresses.insertAddress]
    split_ifs with hprotocol hP hP
    · simp [ofProtocol_cons, hP]
    · simp [ofProtocol_cons, hP]
    · have hne : entry.protocol ≠ P := fun heq => hprotocol (hP.trans heq.symm)
      simp [ofProtocol_cons, hne, ih, hP]
    · simp [ofProtocol_cons, ih, hP]

/-- The addresses of a protocol but its first one are taken out. -/
theorem keepFirst_ofProtocol (Address : CNodeAddress) (entries : List CNodeAddress) :
    ofProtocol P (keepFirst Address entries) =
      if Address.protocol = P then (ofProtocol P entries).take 1 else ofProtocol P entries := by
  induction entries with
  | nil => simp [keepFirst, ofProtocol]
  | cons entry entries ih =>
    rw [keepFirst]
    split_ifs with hprotocol hP hP
    · have hnone : ofProtocol P (entries.filter fun other => Address.protocol ≠ other.protocol) = [] := by
        unfold ofProtocol
        rw [List.filter_filter, List.filter_eq_nil_iff]
        intro other _
        simp only [ne_eq, decide_not, Bool.and_eq_true, decide_eq_true_eq, Bool.not_eq_eq_eq_not, Bool.not_true,
          decide_eq_false_iff_not, not_and, not_not]
        exact fun hother => hP.trans hother.symm
      rw [ofProtocol_cons, ofProtocol_cons, if_pos (hprotocol.symm.trans hP), if_pos (hprotocol.symm.trans hP), hnone]
      simp
    · have hne : ¬ entry.protocol = P := fun heq => hP (hprotocol.trans heq)
      rw [ofProtocol_cons, ofProtocol_cons, if_neg hne, if_neg hne]
      unfold ofProtocol
      rw [List.filter_filter]
      refine List.filter_congr fun other _ => ?_
      simp only [ne_eq, decide_not, Bool.and_eq_left_iff_imp, decide_eq_true_eq, Bool.not_eq_eq_eq_not, Bool.not_true,
        decide_eq_false_iff_not]
      exact fun hother heq => hP (heq.trans hother)
    · have hne : ¬ entry.protocol = P := fun heq => hprotocol (hP.trans heq.symm)
      rw [ofProtocol_cons, ofProtocol_cons, if_neg hne, if_neg hne, ih, if_pos hP]
    · rw [ofProtocol_cons, ofProtocol_cons, ih, if_neg hP]

/-- What an update does with the addresses of its protocol. -/
def updateRange (Address : CNodeAddress) (range : List CNodeAddress) : List CNodeAddress :=
  let visited := visitAddresses Address range
  let range := if visited.2 then visited.1 else Address :: visited.1
  if Address.verifyed then range.take 1 else range

theorem updateAddress_ofProtocol (Address : CNodeAddress) (entries : List CNodeAddress) (P : ℕ) :
    ofProtocol P (updateAddress Address entries) =
      if Address.protocol ≠ 0 ∧ Address.protocol = P then updateRange Address (ofProtocol P entries)
      else ofProtocol P entries := by
  unfold updateAddress
  by_cases hzero : Address.protocol = 0
  · simp [hzero]
  by_cases hP : Address.protocol = P
  · subst hP
    obtain ⟨hrange, hknown⟩ := visitAddresses_ofProtocol Address entries
    have hboth : Address.protocol ≠ 0 ∧ Address.protocol = Address.protocol := ⟨hzero, rfl⟩
    rw [if_neg hzero, if_pos hboth, updateRange]
    dsimp only
    rw [hknown]
    split_ifs <;> simp [keepFirst_ofProtocol, insertAddress_ofProtocol, hrange]
  · have hother := visitAddresses_other (Ne.symm hP) entries
    have hnot : ¬ (Address.protocol ≠ 0 ∧ Address.protocol = P) := fun h => hP h.2
    rw [if_neg hzero, if_neg hnot]
    dsimp only
    split_ifs <;> simp [keepFirst_ofProtocol, insertAddress_ofProtocol, hother, hP]

end Protocols

section Ranges

variable {Address : CNodeAddress} {range : List CNodeAddress}

/-- Addresses of which at most one is verified and at most one is not are at most two. -/
theorem OneOfEach.cases (h : OneOfEach range) :
    range = [] ∨ (∃ entry, range = [entry]) ∨ ∃ entry other, range = [entry, other] ∧
      other.verifyed = !entry.verifyed := by
  obtain ⟨hverifyed, hother⟩ := h
  match range with
  | [] => exact Or.inl rfl
  | [entry] => exact Or.inr (Or.inl ⟨entry, rfl⟩)
  | [entry, other] =>
    refine Or.inr (Or.inr ⟨entry, other, rfl, ?_⟩)
    cases hentry : entry.verifyed <;> cases hlast : other.verifyed <;> simp_all
  | first :: second :: third :: range =>
    exfalso
    cases hfirst : first.verifyed <;> cases hsecond : second.verifyed <;> cases hthird : third.verifyed <;>
      simp [hfirst, hsecond, hthird] at hverifyed hother

theorem mergeAddress_verified {entry : CNodeAddress} (h : sameHost Address entry = true)
    (hverifyed : Address.verifyed = true) :
    compareTo Address (mergeAddress Address entry) = true ∧ (mergeAddress Address entry).verifyed = true := by
  unfold mergeAddress compareTo
  simp only [sameHost, decide_eq_true_eq] at h
  dsimp only
  split_ifs with hport <;> simp_all

theorem visitAddresses_nil : visitAddresses Address [] = ([], false) := rfl

theorem visitAddresses_cons {entry : CNodeAddress} (h : entry.protocol = Address.protocol)
    (entries : List CNodeAddress) :
    visitAddresses Address (entry :: entries) =
      if sameHost Address entry then (mergeAddress Address entry :: entries, true)
      else if entry.verifyed then
        (entry :: (visitAddresses Address entries).1, (visitAddresses Address entries).2)
      else visitAddresses Address entries := by
  rw [visitAddresses, if_neg (not_not.mpr h.symm)]
  cases entry.verifyed <;> simp

theorem compareTo_eq_false {entry : CNodeAddress} (h : sameHost Address entry = false) :
    compareTo Address entry = false := by
  simp only [sameHost, compareTo, decide_eq_false_iff_not, not_and] at h ⊢
  exact fun hprotocol _ hip => h hprotocol.symm hip.symm

theorem compareTo_self : compareTo Address Address = true := by
  simp [compareTo]

section

variable (hrange : ∀ entry ∈ range, entry.protocol = Address.protocol) (hone : OneOfEach range)

include hrange hone

/-- An update by a verified address leaves one address, which is that one if and only if no other verified one is
met before it. -/
theorem updateRange_verified (hverifyed : Address.verifyed = true) :
    ∃ entry, updateRange Address range = [entry] ∧
      (compareTo Address entry = true ∧ entry.verifyed = true ↔ ¬ Masked Address range) := by
  rcases hone.cases with rfl | ⟨entry, rfl⟩ | ⟨entry, other, rfl, hkinds⟩
  · refine ⟨Address, ?_, by simp [compareTo_self, hverifyed, Masked]⟩
    simp [updateRange, visitAddresses_nil, hverifyed]
  · have hentry := hrange entry List.mem_cons_self
    cases hhost : sameHost Address entry with
    | true =>
      refine ⟨mergeAddress Address entry, ?_, ?_⟩
      · simp [updateRange, visitAddresses_cons hentry, hhost, hverifyed]
      · simp [mergeAddress_verified hhost hverifyed, Masked, hhost]
    | false =>
      refine ⟨Address, ?_, by simp [compareTo_self, hverifyed, Masked, hhost]⟩
      cases hkind : entry.verifyed <;>
        simp [updateRange, visitAddresses_cons hentry, visitAddresses_nil, hhost, hverifyed, hkind]
  · have hentry := hrange entry List.mem_cons_self
    have hother := hrange other (by simp)
    cases hhost : sameHost Address entry with
    | true =>
      refine ⟨mergeAddress Address entry, ?_, ?_⟩
      · simp [updateRange, visitAddresses_cons hentry, hhost, hverifyed]
      · simp [mergeAddress_verified hhost hverifyed, Masked, hhost]
    | false =>
      cases hknown : sameHost Address other with
      | false =>
        refine ⟨Address, ?_, by simp [compareTo_self, hverifyed, Masked, hhost, hknown]⟩
        cases hkind : entry.verifyed <;>
          simp [updateRange, visitAddresses_cons hentry, visitAddresses_cons hother, visitAddresses_nil, hhost,
            hknown, hverifyed, hkinds, hkind]
      | true =>
        cases hkind : entry.verifyed with
        | false =>
          refine ⟨mergeAddress Address other, ?_, ?_⟩
          · simp [updateRange, visitAddresses_cons hentry, visitAddresses_cons hother, hhost, hknown, hverifyed, hkind]
          · simp [mergeAddress_verified hknown hverifyed, Masked, hkind]
        | true =>
          -- the loop keeps the first address, and the known one is taken out after it
          refine ⟨entry, ?_, ?_⟩
          · simp [updateRange, visitAddresses_cons hentry, visitAddresses_cons hother, hhost, hknown, hverifyed, hkind]
          · simp [compareTo_eq_false hhost, Masked, hkind, hhost, hknown]

/-- An update by an address that is not verified keeps at most one of each. -/
theorem updateRange_other (hverifyed : Address.verifyed = false) :
    OneOfEach (updateRange Address range) := by
  rcases hone.cases with rfl | ⟨entry, rfl⟩ | ⟨entry, other, rfl, hkinds⟩
  · simp [updateRange, visitAddresses_nil, hverifyed, OneOfEach]
  · have hentry := hrange entry List.mem_cons_self
    cases hhost : sameHost Address entry <;> cases hkind : entry.verifyed <;>
      simp [updateRange, visitAddresses_cons hentry, visitAddresses_nil, hhost, hverifyed, hkind, OneOfEach,
        mergeAddress_verifyed]
  · have hentry := hrange entry List.mem_cons_self
    have hother := hrange other (by simp)
    cases hhost : sameHost Address entry <;> cases hknown : sameHost Address other <;> cases hkind : entry.verifyed <;>
        simp [updateRange, visitAddresses_cons hentry, visitAddresses_cons hother, visitAddresses_nil, hhost, hknown,
          hverifyed, hkinds, hkind, OneOfEach, mergeAddress_verifyed]

theorem OneOfEach.updateRange : OneOfEach (updateRange Address range) := by
  cases hverifyed : Address.verifyed with
  | false => exact updateRange_other hrange hone hverifyed
  | true =>
    obtain ⟨entry, heq, -⟩ := updateRange_verified hrange hone hverifyed
    rw [heq]
    cases hkind : entry.verifyed <;> simp [OneOfEach, hkind]

end

end Ranges

section Runs

variable {entries : List CNodeAddress}

theorem protocol_of_mem {P : ℕ} : ∀ entry ∈ ofProtocol P entries, entry.protocol = P := by
  simp [ofProtocol]

theorem OneOfEach.sublist {range range' : List CNodeAddress} (h : OneOfEach range)
    (hsublist : range'.Sublist range) : OneOfEach range' :=
  ⟨hsublist.countP_le.trans h.1, hsublist.countP_le.trans h.2⟩

/-- An address that is put in behind others is one of each, if and only if it is the first of its kind. -/
theorem oneOfEach_concat {Address : CNodeAddress} {range : List CNodeAddress} (h : OneOfEach range) :
    OneOfEach (range ++ [Address]) ↔ ∀ entry ∈ range, entry.verifyed ≠ Address.verifyed := by
  obtain ⟨hverifyed, hother⟩ := h
  cases hkind : Address.verifyed with
  | false =>
    have hcount : range.countP (fun entry => !entry.verifyed) = 0 ↔ ∀ entry ∈ range, entry.verifyed ≠ false := by
      simp [List.countP_eq_zero]
    rw [← hcount]
    simp [OneOfEach, hkind, List.countP_append]
    omega
  | true =>
    have hcount : range.countP (fun entry => entry.verifyed) = 0 ↔ ∀ entry ∈ range, entry.verifyed ≠ true := by
      simp [List.countP_eq_zero]
    rw [← hcount]
    simp [OneOfEach, hkind, List.countP_append]
    omega

/-- A call does what is expected of it if and only if it meets the condition. -/
theorem opRight_iff (h : ∀ P, OneOfEach (ofProtocol P entries)) (op : AddressOp) :
    OpRight entries op ↔ OpOk entries op := by
  cases op with
  | update Address =>
    have hkeep : ∀ P, OneOfEach (ofProtocol P (updateAddress Address entries)) := by
      intro P
      rw [updateAddress_ofProtocol]
      split_ifs with hP
      · exact (h P).updateRange fun entry hentry => (protocol_of_mem entry hentry).trans hP.2.symm
      · exact h P
    unfold OpRight OpOk
    rw [AddressOp.apply, and_iff_right hkeep]
    refine forall_congr' fun hzero => forall_congr' fun hverifyed => ?_
    obtain ⟨entry, heq, hiff⟩ := updateRange_verified protocol_of_mem (h Address.protocol) hverifyed
    have hboth : Address.protocol ≠ 0 ∧ Address.protocol = Address.protocol := ⟨hzero, rfl⟩
    unfold OnlyLeft
    rw [updateAddress_ofProtocol, if_pos hboth, heq, ← hiff]
    simp
  | insert Address =>
    have happend : ∀ P, ofProtocol P (entries ++ [Address]) =
        if Address.protocol = P then ofProtocol P entries ++ [Address] else ofProtocol P entries := by
      intro P
      rw [ofProtocol, List.filter_append]
      split_ifs with hP <;> simp [ofProtocol, hP]
    unfold OpRight OpOk
    dsimp only
    rw [AddressOp.apply, insertAddress, and_true, ← oneOfEach_concat (h Address.protocol)]
    constructor
    · intro hall
      have hrange := hall Address.protocol
      rwa [happend, if_pos rfl] at hrange
    · intro hone P
      rw [happend]
      split_ifs with hP
      · subst hP
        exact hone
      · exact h P
  | remove Address =>
    have hkeep : ∀ P, OneOfEach (ofProtocol P (removeAddress Address entries)) := fun P =>
      (h P).sublist (List.eraseP_sublist.filter _)
    simp [OpRight, OpOk, AddressOp.apply, hkeep]

theorem runRight_iff (h : ∀ P, OneOfEach (ofProtocol P entries)) (ops : List AddressOp) :
    RunRight entries ops ↔ RunOk entries ops := by
  induction ops generalizing entries with
  | nil => simp [RunRight, RunOk]
  | cons op ops ih =>
    rw [RunRight, RunOk, opRight_iff h]
    refine and_congr_right fun hok => ih ?_
    exact ((opRight_iff h op).mpr hok).1

/-- In the runs of a node whose calls all meet the condition there is at most one verified and at most one other
address of each protocol, and a verified address by which one is updated is the only one left. In all other runs a
call fails to do so. -/
theorem addresses_right_iff (ops : List AddressOp) : RunRight [] ops ↔ RunOk [] ops :=
  runRight_iff (by simp [ofProtocol, OneOfEach]) ops

/-- An address of the first protocol. -/
def address (ip : ℕ) (verifyed : Bool) : CNodeAddress := ⟨1, ip, 4000, 0, none, verifyed⟩

/-- Two addresses that are put in stay both, and a verified address by which one behind another is updated is
not left. -/
theorem addresses_wrong : ¬ RunRight [] [.insert (address 1 false), .insert (address 2 false)] ∧
      updateAddress (address 2 true) [address 1 true, address 2 false] = [address 1 true] ∧
      ¬ RunRight [] [.insert (address 1 true), .insert (address 2 false), .update (address 2 true)] := by
  have hmasked : updateAddress (address 2 true) [address 1 true, address 2 false] = [address 1 true] := by decide
  refine ⟨fun hrun => ?_, hmasked, fun hrun => ?_⟩
  · have hboth : OneOfEach [address 1 false, address 2 false] := hrun.2.1.1 1
    exact absurd hboth (by simp [OneOfEach, address])
  · obtain ⟨entry, heq, hsame, -⟩ := hrun.2.2.1.2 (by decide) rfl
    have hleft : ofProtocol 1 (updateAddress (address 2 true) [address 1 true, address 2 false]) = [entry] := heq
    rw [hmasked] at hleft
    have hfirst : address 1 true = entry := by simpa [ofProtocol, address] using hleft
    rw [← hfirst] at hsame
    exact absurd hsame (by decide)

end Runs

end NeoLoader.NodeAddressRuns
