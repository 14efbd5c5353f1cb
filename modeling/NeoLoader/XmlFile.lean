import NeoLoader.XmlRoundTrip

/-!
# The file that is replaced

A tree is written to a file beside the old one. Then the old file is renamed to a backup, the
new one takes its name, and the backup is removed. No result of these steps is looked at, and
reading never looks for the backup. A write that is cut between the two renames leaves no file,
and a backup that is left makes the next whole write fail.
-/

namespace NeoLoader.XmlFile

open TextEncodings XmlVariant XmlRoundTrip

/-- A tree whose maps stand in the order of their keys. -/
abbrev QVariant := {v : Value // v.Each NodeSorted}

/-- The files of one name, each with the calls that wrote it. -/
structure Disk where
  /-- The file itself. -/
  file : Option (List Call)
  /-- The file with `.bak` behind its name. -/
  bak : Option (List Call)
  /-- The file with `.tmp` behind its name. -/
  tmp : Option (List Call)

/-- No file has been written. -/
def Disk.empty : Disk := ⟨none, none, none⟩

/-- A file operation of `CXml::Write`. -/
inductive FileOp where
  /-- Open the new file, empty. -/
  | openTmp
  /-- Write on. -/
  | write (call : Call)
  /-- Rename the old file to the backup. -/
  | renameFile
  /-- Rename the new file to the old one's name. -/
  | renameTmp
  /-- Remove the backup. -/
  | removeBak

/-- What an operation does. A file that is not there is not renamed, and no other is replaced. -/
def FileOp.apply : FileOp → Disk → Disk
  | openTmp, d => { d with tmp := some [] }
  | write call, d => { d with tmp := d.tmp.map (· ++ [call]) }
  | renameFile, d =>
    if d.file.isSome && d.bak.isNone then { d with file := none, bak := d.file } else d
  | renameTmp, d =>
    if d.tmp.isSome && d.file.isNone then { d with file := d.tmp, tmp := none } else d
  | removeBak, d => { d with bak := none }

/-- Operations one after the other. -/
def applyAll (ops : List FileOp) (d : Disk) : Disk := ops.foldl (fun d op => op.apply d) d

/-- A call of `CXml::Write` and after how many file operations it was interrupted. -/
structure Write where
  /-- The tree. -/
  tree : QVariant
  /-- Number of operations that were done. -/
  done : ℕ

/-- The operations up to the first rename. -/
def Write.prepare (w : Write) : List FileOp :=
  .openTmp :: (serializeDocument w.tree.1).map .write

/-- The operations of a call. -/
def Write.ops (w : Write) : List FileOp := w.prepare ++ [.renameFile, .renameTmp, .removeBak]

/-- The call was not interrupted. -/
def Write.IsComplete (w : Write) : Prop := w.ops.length ≤ w.done

instance (w : Write) : Decidable w.IsComplete := inferInstanceAs (Decidable (_ ≤ _))

/-- What a call leaves. -/
def Write.run (d : Disk) (w : Write) : Disk := applyAll (w.ops.take w.done) d

/-- What some calls leave. -/
def run (writes : List Write) : Disk := writes.foldl Write.run Disk.empty

/-- `CXml::Read`; a file that cannot be opened is not well formed. -/
def read (qt : QtXml) (d : Disk) : Value :=
  match d.file with
  | some calls => parseDocument (qt.events calls)
  | none => parseDocument [.error]

/-- What one more call may leave to be read: its tree, and what was there unless it was done. -/
def expectedAfter (possible : List Value) (w : Write) : List Value :=
  if w.IsComplete then [w.tree.1] else w.tree.1 :: possible

/-- What may be read after some calls: the last tree that was written completely, or one whose
write was interrupted since then. Before the first of them there is only the null value. -/
def expected (writes : List Write) : List Value := writes.foldl expectedAfter [.invalid]

variable (calls : List Call)

theorem applyAll_write (d : Disk) : applyAll (calls.map .write) d = { d with tmp := d.tmp.map (· ++ calls) } := by
  induction calls generalizing d with
  | nil =>
    cases d with
    | mk file bak tmp => cases tmp <;> simp [applyAll]
  | cons call calls ih =>
    have hrest := ih (FileOp.apply (.write call) d)
    cases d with
    | mk file bak tmp => cases tmp <;> simpa [applyAll, FileOp.apply] using hrest

theorem applyAll_prepare (w : Write) (d : Disk) :
    applyAll w.prepare d = { d with tmp := some (serializeDocument w.tree.1) } :=
  applyAll_write _ _

variable {w : Write}

/-- A call that is interrupted before the first rename leaves the file and its backup. -/
theorem run_of_done_le (h : w.done ≤ w.prepare.length) (d : Disk) :
    (w.run d).file = d.file ∧ (w.run d).bak = d.bak := by
  rw [Write.run, Write.ops, List.take_append_of_le_length h, Write.prepare]
  cases w.done with
  | zero => exact ⟨rfl, rfl⟩
  | succ k =>
    rw [List.take_succ_cons, ← List.map_take]
    have hwrite := applyAll_write ((serializeDocument w.tree.1).take k) { d with tmp := some [] }
    have hfile := congrArg Disk.file hwrite
    have hbak := congrArg Disk.bak hwrite
    exact ⟨hfile, hbak⟩

theorem run_of_lt_done {k : ℕ} (h : w.done = w.prepare.length + k) (d : Disk) :
    w.run d = applyAll ([.renameFile, .renameTmp, .removeBak].take k)
      { d with tmp := some (serializeDocument w.tree.1) } := by
  rw [Write.run, Write.ops, h, List.take_length_add_append, applyAll, List.foldl_append]
  exact congrArg (applyAll _) (applyAll_prepare w d)

/-- The condition on a call and on the files before it. -/
structure Write.Meets (qt : QtXml) (d : Disk) (w : Write) : Prop where
  /-- A tree that gets into place can be stored. -/
  storable : w.prepare.length + 2 ≤ w.done → d.file = none ∨ d.bak = none → w.tree.1.Each (NodeStorable qt.IsName)
  /-- The call is not cut between its renames while it replaces the file. -/
  not_between : w.done = w.prepare.length + 1 → d.file ≠ none → d.bak ≠ none
  /-- A whole call finds no backup left beside the file. -/
  not_left : w.IsComplete → d.file ≠ none → d.bak = none

/-- Each call meets the condition on the files that it finds. -/
def RunMeets (qt : QtXml) : Disk → List Write → Prop
  | _, [] => True
  | d, w :: writes => w.Meets qt d ∧ RunMeets qt (w.run d) writes

variable {qt : QtXml}

theorem read_congr {d d' : Disk} (h : d.file = d'.file) : read qt d = read qt d' := by
  rw [read, read, h]

variable {d : Disk}

theorem read_placed (hw : w.tree.1.Each (NodeStorable qt.IsName)) (hd : d.file = some (serializeDocument w.tree.1)) :
    read qt d = w.tree.1 := by
  rw [read, hd]
  exact (qt.reparse_iff w.tree.2).mpr hw

theorem file_of_renames (h : d.file = none ∨ d.bak = none) :
    (applyAll [.renameFile, .renameTmp] { d with tmp := some calls }).file = some calls := by
  cases d with
  | mk file bak tmp =>
    cases file with
    | none => rfl
    | some old =>
      cases bak with
      | none => rfl
      | some backup => exact absurd h (by simp)

theorem file_of_left (hfile : d.file ≠ none) (hbak : d.bak ≠ none) :
    (applyAll [.renameFile, .renameTmp] { d with tmp := some calls }).file = d.file := by
  cases d with
  | mk file bak tmp =>
    cases file with
    | none => exact absurd rfl hfile
    | some old =>
      cases bak with
      | none => exact absurd rfl hbak
      | some backup => rfl

theorem file_of_renameFile (h : d.file ≠ none → d.bak ≠ none) :
    (applyAll [.renameFile] { d with tmp := some calls }).file = d.file := by
  cases d with
  | mk file bak tmp =>
    cases file with
    | none => rfl
    | some old =>
      cases bak with
      | none => exact absurd rfl (h nofun)
      | some backup => rfl

variable {possible : List Value}

theorem mem_expectedAfter (h : ¬w.IsComplete) {v : Value} (hv : v ∈ possible) : v ∈ expectedAfter possible w := by
  rw [expectedAfter, if_neg h]
  exact List.mem_cons_of_mem _ hv

theorem tree_mem_expectedAfter (possible : List Value) (w : Write) : w.tree.1 ∈ expectedAfter possible w := by
  rw [expectedAfter]
  split_ifs
  · exact List.mem_singleton_self _
  · exact List.mem_cons_self

/-- A call that meets the condition leaves a tree that is expected. -/
theorem read_step (h : w.Meets qt d) (hd : read qt d ∈ possible) : read qt (w.run d) ∈ expectedAfter possible w := by
  have hlength : w.ops.length = w.prepare.length + 3 := List.length_append
  have hcomplete : w.IsComplete ↔ w.prepare.length + 3 ≤ w.done := by
    rw [Write.IsComplete, hlength]
  have hsame : ¬w.IsComplete → (w.run d).file = d.file → read qt (w.run d) ∈ expectedAfter possible w := by
    intro hcut hfile
    rw [read_congr hfile]
    exact mem_expectedAfter hcut hd
  have hplaced : w.prepare.length + 2 ≤ w.done → d.file = none ∨ d.bak = none →
      (w.run d).file = some (serializeDocument w.tree.1) →
      read qt (w.run d) ∈ expectedAfter possible w := by
    intro hdone hfree hfile
    rw [read_placed (h.storable hdone hfree) hfile]
    exact tree_mem_expectedAfter possible w
  rcases Nat.lt_or_ge w.prepare.length w.done with hlt | hle
  · obtain ⟨k, hk⟩ := Nat.exists_eq_add_of_lt hlt
    rw [Nat.add_assoc] at hk
    have hrun := run_of_lt_done hk d
    match k with
    | 0 =>
      refine hsame (fun hc => by rw [hcomplete] at hc; omega) ?_
      rw [hrun]
      exact file_of_renameFile _ (h.not_between hk)
    | 1 =>
      by_cases hfree : d.file = none ∨ d.bak = none
      · refine hplaced (by omega) hfree ?_
        rw [hrun]
        exact file_of_renames _ hfree
      · rw [not_or] at hfree
        refine hsame (fun hc => by rw [hcomplete] at hc; omega) ?_
        rw [hrun]
        exact file_of_left _ hfree.1 hfree.2
    | k + 2 =>
      have hfree : d.file = none ∨ d.bak = none :=
        or_iff_not_imp_left.mpr (h.not_left (hcomplete.mpr (by omega)))
      refine hplaced (by omega) hfree ?_
      rw [hrun, List.take_of_length_le (Nat.le_add_left 3 k)]
      exact file_of_renames _ hfree
  · have hfile := (run_of_done_le hle d).1
    exact hsame (fun hc => by rw [hcomplete] at hc; omega) hfile

theorem read_run {writes : List Write} (h : RunMeets qt d writes) (hd : read qt d ∈ possible) :
    read qt (writes.foldl Write.run d) ∈ writes.foldl expectedAfter possible := by
  induction writes generalizing d possible with
  | nil => exact hd
  | cons w writes ih => exact ih h.2 (read_step h.1 hd)

theorem runMeets_of_append {first second : List Write} (h : RunMeets qt d (first ++ second)) : RunMeets qt d first := by
  induction first generalizing d with
  | nil => exact trivial
  | cons w first ih => exact ⟨h.1, ih h.2⟩

/-- Exactly the trees without null values, with names as keys and with plain strings come back,
and at any time of a run that meets the condition the expected tree is read. -/
theorem read_after_writes (qt : QtXml) : (∀ v : QVariant, qt.reparse v.1 = v.1 ↔ v.1.Each (NodeStorable qt.IsName)) ∧
      ∀ writes : List Write, RunMeets qt Disk.empty writes →
        ∀ earlier, earlier <+: writes → read qt (run earlier) ∈ expected earlier := by
  refine ⟨fun v => qt.reparse_iff v.2, fun writes h earlier hprefix => ?_⟩
  obtain ⟨later, rfl⟩ := hprefix
  exact read_run (runMeets_of_append h) (List.mem_singleton_self _)

section AsciiNames

/-- A name of XML begins with a letter or a low line. -/
def nameStart (u : UInt16) : Bool :=
  (65 ≤ u.toNat && u.toNat ≤ 90) || (97 ≤ u.toNat && u.toNat ≤ 122) || u.toNat == 95

/-- It goes on with these, digits, hyphens and full stops. -/
def nameUnit (u : UInt16) : Bool :=
  nameStart u || (48 ≤ u.toNat && u.toNat ≤ 57) || u.toNat == 45 || u.toNat == 46

/-- A name of XML in ASCII. -/
def isAsciiName : QString → Bool
  | [] => false
  | u :: us => nameStart u && us.all nameUnit

/-- The name of an element is one. -/
def Call.isNamed : Call → Bool
  | .writeStartElement name _ => isAsciiName name
  | _ => true

/-- What is found of a call. -/
def Call.event : Call → Event
  | .writeStartDocument => .startDocument
  | .writeStartElement name type => .startElement name type
  | .writeCharacters text => .characters text
  | .writeEndElement => .endElement
  | .writeEndDocument => .endDocument

/-- What is found of some calls if their names are names; else an error after the start. -/
def asciiEvents (calls : List Call) : List Event :=
  if calls.all Call.isNamed then calls.map Call.event else [.startDocument, .error]

theorem rereads_map (calls : List Call) : Rereads calls (calls.map Call.event) := by
  induction calls with
  | nil => rfl
  | cons call calls ih =>
    cases call with
    | writeCharacters text => exact ⟨[text], _, rfl, List.append_nil text, ih⟩
    | _ => exact ⟨_, rfl, ih⟩

variable {calls : List Call}

theorem isNamed_of_isContent (h : IsContent (fun s => isAsciiName s = true) calls) : calls.all Call.isNamed = true := by
  induction h with
  | empty => rfl
  | text => rfl
  | element hname _ _ _ hinner hlater =>
    rw [List.cons_append, List.all_cons, List.all_append, List.all_cons, hinner, hlater]
    simpa [Call.isNamed] using hname

theorem isNamed_of_isDocument
    (h : IsDocument (fun s => isAsciiName s = true) calls) : calls.all Call.isNamed = true := by
  obtain ⟨name, type, inner, hname, -, hinner, rfl⟩ := h
  have hall := isNamed_of_isContent hinner
  simp [Call.isNamed, hname, hall]

/-- Only names are found. -/
theorem isAsciiName_of_mem {name : QString} {type : String}
    (h : .startElement name type ∈ asciiEvents calls) : isAsciiName name = true := by
  rw [asciiEvents] at h
  split_ifs at h with hall
  · obtain ⟨call, hcall, hevent⟩ := List.mem_map.mp h
    cases call with
    | writeStartElement name' type' =>
      have hnamed := List.all_eq_true.mp hall _ hcall
      cases hevent
      exact hnamed
    | _ => cases hevent
  · simp at h

/-- A letter is one unit, and begins a name. -/
theorem nameStart_of_isAlpha {c : Char} (h : c.isAlpha = true) : ∃ u, toUtf16 c = [u] ∧ nameStart u = true := by
  have hrange : (65 ≤ c.toNat ∧ c.toNat ≤ 90) ∨ (97 ≤ c.toNat ∧ c.toNat ≤ 122) := by
    rcases Bool.or_eq_true_iff.mp h with hupper | hlower
    · exact Or.inl (of_decide_eq_true hupper)
    · have hlow := Bool.and_eq_true_iff.mp hlower
      exact Or.inr ⟨of_decide_eq_true hlow.1, of_decide_eq_true hlow.2⟩
  have hunit : (UInt16.ofNat c.toNat).toNat = c.toNat := UInt16.toNat_ofNat_of_lt' (by
    show c.toNat < 65536
    omega)
  refine ⟨UInt16.ofNat c.toNat, if_pos (by omega), ?_⟩
  simp only [nameStart, hunit, Bool.or_eq_true, Bool.and_eq_true, decide_eq_true_eq]
  exact Or.inl hrange

/-- Letters are a name. -/
theorem isAsciiName_of_isAlpha {cs : List Char} (hne : cs ≠ [])
    (h : ∀ c ∈ cs, c.isAlpha = true) : isAsciiName (cs.flatMap toUtf16) = true := by
  have hall : ∀ cs : List Char, (∀ c ∈ cs, c.isAlpha = true) → (cs.flatMap toUtf16).all nameUnit = true := by
    intro cs hcs
    induction cs with
    | nil => rfl
    | cons c cs ih =>
      obtain ⟨u, hu, hstart⟩ := nameStart_of_isAlpha (hcs c List.mem_cons_self)
      have hunit : nameUnit u = true := by simp [nameUnit, hstart]
      rw [List.flatMap_cons, hu, List.singleton_append, List.all_cons, hunit,
        ih fun a ha => hcs a (List.mem_cons_of_mem _ ha)]
      rfl
  cases cs with
  | nil => exact absurd rfl hne
  | cons c cs =>
    obtain ⟨u, hu, hstart⟩ := nameStart_of_isAlpha (h c List.mem_cons_self)
    rw [List.flatMap_cons, hu, List.singleton_append, isAsciiName, hstart,
      hall cs fun a ha => h a (List.mem_cons_of_mem _ ha)]
    rfl

/-- A writer and a reader for names in ASCII. -/
def asciiXml : QtXml where
  IsName s := isAsciiName s = true
  events := asciiEvents
  rereads calls h := by
    rw [asciiEvents, if_pos (isNamed_of_isDocument h)]
    exact rereads_map calls
  named _ _ _ h := isAsciiName_of_mem h
  letters _ hne h := isAsciiName_of_isAlpha hne h

end AsciiNames

/-- The tree of one truth value. -/
def flag (b : Bool) : QVariant := ⟨.bool b, trivial⟩

/-- Two whole writes keep the second tree. -/
theorem read_after_two_writes : read asciiXml (run [⟨flag true, 9⟩, ⟨flag false, 9⟩]) ∈
      expected [⟨flag true, 9⟩, ⟨flag false, 9⟩] := by
  have hmeets : ∀ b d, d.bak = none → Write.Meets asciiXml d ⟨flag b, 9⟩ := fun b d hbak =>
    ⟨fun _ _ => trivial, fun hdone => absurd hdone (show (9 : ℕ) ≠ 7 by decide), fun _ _ => hbak⟩
  exact (read_after_writes asciiXml).2 [⟨flag true, 9⟩, ⟨flag false, 9⟩]
    ⟨hmeets true _ rfl, hmeets false _ rfl, trivial⟩ _ (List.prefix_refl _)

/-- A write that is cut between its renames leaves no file, one that meets a left backup leaves
the old tree, the null value comes back as a text, and a key of digits is lost. -/
theorem read_after_writes_lost : read asciiXml (run [⟨flag true, 9⟩, ⟨flag false, 7⟩]) ∉
        expected [⟨flag true, 9⟩, ⟨flag false, 7⟩] ∧
      read asciiXml (run [⟨flag true, 9⟩, ⟨flag false, 8⟩, ⟨flag true, 9⟩]) ∉
        expected [⟨flag true, 9⟩, ⟨flag false, 8⟩, ⟨flag true, 9⟩] ∧
      asciiXml.reparse .invalid ≠ .invalid ∧
      asciiXml.reparse (.map [(ascii "213", .bool true)]) ≠ .map [(ascii "213", .bool true)] := by
  refine ⟨?_, ?_, ?_, ?_⟩
  · have hnull : read asciiXml (run [⟨flag true, 9⟩, ⟨flag false, 7⟩]) = .invalid := rfl
    have hexpected : expected [⟨flag true, 9⟩, ⟨flag false, 7⟩] = [.bool false, .bool true] := rfl
    rw [hnull, hexpected]
    simp
  · have hold : read asciiXml (run [⟨flag true, 9⟩, ⟨flag false, 8⟩, ⟨flag true, 9⟩]) =
        .bool false := asciiXml.reparse_eq (v := .bool false) trivial trivial
    have hexpected : expected [⟨flag true, 9⟩, ⟨flag false, 8⟩, ⟨flag true, 9⟩] = [.bool true] := rfl
    rw [hold, hexpected]
    simp
  · exact fun h => (asciiXml.reparse_iff (v := .invalid) trivial).mp h
  · intro h
    have hstorable := (asciiXml.reparse_iff (v := .map [(ascii "213", .bool true)])
      ⟨List.pairwise_singleton _ _, trivial, trivial⟩).mp h
    have hname : isAsciiName (ascii "213") = true := hstorable.1 _ List.mem_cons_self
    exact absurd hname (by decide)

end NeoLoader.XmlFile
