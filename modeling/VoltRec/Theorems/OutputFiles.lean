import VoltRec.Converter

/-! The output files of the converter. They are all created if and only if each name is new and no antenna comes
    twice. `write_ext_header` copies the header file from where its descriptor stands, however `read` cuts the file
    up, and leaves the descriptor at the end; so the first antenna gets the header and the others get nothing. -/

namespace VoltRec

/-! ### The external header -/

/-- A call of `read` gives a piece of what is left, and an empty one only at the end. -/
theorem InFile.read_spec (chunks : Nat → Nat) (f : InFile) (len : Nat) :
    ∃ buf f', f.read (fun k => some (chunks k)) len = (some buf, f') ∧ f.rest = buf ++ f'.rest ∧
      (buf = [] → f.rest = []) := by
  refine ⟨_, _, rfl, (List.take_append_drop _ f.rest).symm, fun hnil => ?_⟩
  rcases List.take_eq_nil_iff.mp hnil with h0 | h
  · omega
  · exact h

theorem writeExtHeader_nil {answers : Nat → Option Nat} {f f' : InFile}
    (h : f.read answers myBufferSize = (some [], f')) : writeExtHeader answers f = ([], f') := by
  rw [writeExtHeader]
  split
  · rename_i h'
    cases h.symm.trans h'
  · rename_i h'
    cases h.symm.trans h'
    rfl

theorem writeExtHeader_cons {answers : Nat → Option Nat} {f f' : InFile} {b : UInt8} {buf : List UInt8}
    (h : f.read answers myBufferSize = (some (b :: buf), f')) :
    writeExtHeader answers f = (b :: buf ++ (writeExtHeader answers f').1, (writeExtHeader answers f').2) := by
  rw [writeExtHeader]
  split
  · rename_i h'
    cases h.symm.trans h'
    rfl
  · rename_i hno h'
    cases h.symm.trans h'
    exact (hno _ _ rfl).elim

theorem writeExtHeader_spec (chunks : Nat → Nat) (f : InFile) :
    (writeExtHeader (fun k => some (chunks k)) f).1 = f.rest ∧
      (writeExtHeader (fun k => some (chunks k)) f).2.rest = [] := by
  induction hn : f.rest.length using Nat.strongRecOn generalizing f with
  | ind n ih =>
    obtain ⟨buf, f', hread, hrest, hend⟩ := f.read_spec chunks myBufferSize
    cases buf with
    | nil =>
      rw [writeExtHeader_nil hread]
      exact ⟨(hend rfl).symm, hrest.symm.trans (hend rfl)⟩
    | cons b buf =>
      obtain ⟨hout, hleft⟩ := ih _ (hn ▸ InFile.length_read hread) f' rfl
      rw [writeExtHeader_cons hread, hout, hrest]
      exact ⟨rfl, hleft⟩

/-! ### Names -/

/-- The names of all output files are new. -/
structure Creatable (refused : OutName → Bool) (antIDs : List Nat) : Prop where
  nodup : antIDs.Nodup
  free : ∀ a ∈ antIDs, refused (.txt a) = false ∧ refused (.bin a) = false

variable {refused : OutName → Bool} {header : Option HeaderFile} {antIDs : List Nat} {o : Outputs} {antID : Nat}

theorem creatable_nil : Creatable refused [] := ⟨List.nodup_nil, fun _ ha => absurd ha List.not_mem_nil⟩

theorem creatable_snoc : Creatable refused (antIDs ++ [antID]) ↔
    Creatable refused antIDs ∧ antID ∉ antIDs ∧ refused (.txt antID) = false ∧ refused (.bin antID) = false := by
  constructor
  · rintro ⟨hnodup, hfree⟩
    rw [List.nodup_append] at hnodup
    obtain ⟨hnodup, -, hdisj⟩ := hnodup
    exact ⟨⟨hnodup, fun a ha => hfree a (List.mem_append_left _ ha)⟩,
      fun hmem => hdisj antID hmem antID (List.mem_singleton_self _) rfl,
      hfree antID (List.mem_append_right _ (List.mem_singleton_self _))⟩
  · rintro ⟨⟨hnodup, hfree⟩, hnew, hant⟩
    refine ⟨List.nodup_append.mpr ⟨hnodup, List.nodup_singleton _, fun a ha b hb hab => ?_⟩, fun a ha => ?_⟩
    · exact hnew (List.mem_singleton.mp hb ▸ hab ▸ ha)
    · rcases List.mem_append.mp ha with ha | ha
      · exact hfree a ha
      · exact List.mem_singleton.mp ha ▸ hant

namespace Outputs

def opened (header : Option HeaderFile) (o : Outputs) (iK antID : Nat) : Outputs where
  names := .bin antID :: .txt antID :: o.names
  out := Function.update o.out iK (some (header.elim [] fun f => (writeExtHeader f.answers o.headerFd).1))
  headerFd := header.elim o.headerFd fun f => (writeExtHeader f.answers o.headerFd).2

theorem openOutput_ok (htxt : refused (.txt antID) = false) (hbin : refused (.bin antID) = false)
    (htxt' : .txt antID ∉ o.names) (hbin' : .bin antID ∉ o.names) (iK : Nat) :
    o.openOutput refused header iK antID = .ok (o.opened header iK antID) := by
  have h1 : o.create refused (.txt antID) = .ok { o with names := .txt antID :: o.names } := by
    rw [create, if_neg (by simp [htxt, htxt'])]
  have h2 : ({ o with names := .txt antID :: o.names } : Outputs).create refused (.bin antID) =
      .ok { o with names := .bin antID :: .txt antID :: o.names } := by
    rw [create, if_neg (by simp [hbin, hbin'])]
  rw [openOutput, h1]
  simp only [bind, Except.bind, h2]
  cases header <;> rfl

theorem openOutput_error (h : refused (.txt antID) = true ∨ refused (.bin antID) = true ∨ .txt antID ∈ o.names)
    (iK : Nat) : o.openOutput refused header iK antID = .error (.openFailed o.out) := by
  by_cases htxt : refused (.txt antID) = true ∨ .txt antID ∈ o.names
  · have h1 : o.create refused (.txt antID) = .error (.openFailed o.out) := by rw [create, if_pos htxt]
    rw [openOutput, h1]
    rfl
  · have hbin : refused (.bin antID) = true := by tauto
    have h1 : o.create refused (.txt antID) = .ok { o with names := .txt antID :: o.names } := by
      rw [create, if_neg htxt]
    have h2 : ({ o with names := .txt antID :: o.names } : Outputs).create refused (.bin antID) =
        .error (.openFailed o.out) := by
      rw [create, if_pos (Or.inl hbin)]
    rw [openOutput, h1]
    simp only [bind, Except.bind, h2]

end Outputs

theorem openOutputs_snoc (antIDs : List Nat) (antID : Nat) :
    openOutputs refused header (antIDs ++ [antID]) =
      (openOutputs refused header antIDs).bind fun o => o.openOutput refused header antIDs.length antID := by
  simp only [openOutputs, List.zipIdx_append, List.foldlM_append, List.zipIdx_singleton, Nat.zero_add,
    List.foldlM_cons, List.foldlM_nil, bind_pure]
  rfl

/-- What has been created for some antennas. -/
structure Opened (antIDs : List Nat) (o : Outputs) : Prop where
  txt : ∀ a, .txt a ∈ o.names ↔ a ∈ antIDs
  bin : ∀ a, .bin a ∈ o.names ↔ a ∈ antIDs
  out : ∀ iK, o.out iK = none ↔ antIDs.length ≤ iK

theorem Opened.next (h : Opened antIDs o) (header : Option HeaderFile) (antID : Nat) :
    Opened (antIDs ++ [antID]) (o.opened header antIDs.length antID) where
  txt a := by simp [Outputs.opened, h.txt, or_comm]
  bin a := by simp [Outputs.opened, h.bin, or_comm]
  out iK := by
    by_cases hi : iK = antIDs.length
    · simp [Outputs.opened, hi]
    · have hkeep : (o.opened header antIDs.length antID).out iK = o.out iK := Function.update_of_ne hi ..
      rw [hkeep, h.out, List.length_append, List.length_singleton]
      omega

/-- The files are all created, or the program ends and some antenna is without its file. -/
theorem openOutputs_cases (refused : OutName → Bool) (header : Option HeaderFile) (antIDs : List Nat) :
    (Creatable refused antIDs ∧ ∃ o, openOutputs refused header antIDs = .ok o ∧ Opened antIDs o) ∨
    (¬Creatable refused antIDs ∧ ∃ out, openOutputs refused header antIDs = .error (.openFailed out) ∧
      ∃ iK < antIDs.length, out iK = none) := by
  induction antIDs using List.reverseRecOn with
  | nil =>
    exact Or.inl ⟨creatable_nil, .start header, rfl, ⟨fun a => by simp [Outputs.start], fun a => by
      simp [Outputs.start], fun iK => by simp [Outputs.start]⟩⟩
  | append_singleton antIDs antID ih =>
    rw [creatable_snoc, openOutputs_snoc]
    rcases ih with ⟨hc, o, ho, hopened⟩ | ⟨hc, out, ho, iK, hiK, hnone⟩ <;> rw [ho]
    · by_cases hnew : antID ∉ antIDs ∧ refused (.txt antID) = false ∧ refused (.bin antID) = false
      · have hok := @Outputs.openOutput_ok _ header _ _ hnew.2.1 hnew.2.2 (mt (hopened.txt antID).mp hnew.1)
          (mt (hopened.bin antID).mp hnew.1) antIDs.length
        exact Or.inl ⟨⟨hc, hnew⟩, _, hok, hopened.next header antID⟩
      · have hbad : refused (.txt antID) = true ∨ refused (.bin antID) = true ∨ .txt antID ∈ o.names := by
          rw [hopened.txt]
          by_cases hmem : antID ∈ antIDs
          · exact Or.inr (Or.inr hmem)
          · cases htxt : refused (.txt antID) <;> cases hbin : refused (.bin antID) <;> simp_all
        refine Or.inr ⟨fun h => hnew h.2, _, Outputs.openOutput_error hbad _, antIDs.length, by simp, ?_⟩
        exact (hopened.out _).mpr (Nat.le_refl _)
    · exact Or.inr ⟨fun h => hc h.1, out, rfl, iK, by rw [List.length_append]; omega, hnone⟩

/-! ### Contents -/

/-- No call of `read` on the header file fails. -/
def Readable (header : Option HeaderFile) : Prop :=
  ∀ f ∈ header, ∃ chunks : Nat → Nat, f.answers = fun k => some (chunks k)

theorem readable_none : Readable none := by simp [Readable]

theorem opened_front (h : Readable header) (hnone : header = none → o.headerFd.rest = []) (iK antID : Nat) :
    (o.opened header iK antID).out = Function.update o.out iK (some o.headerFd.rest) ∧
      (o.opened header iK antID).headerFd.rest = [] := by
  cases header with
  | none =>
    have hnil := hnone rfl
    simp only [Outputs.opened, Option.elim_none, hnil, and_self]
  | some f =>
    obtain ⟨chunks, hf⟩ := h f rfl
    obtain ⟨hout, hrest⟩ := writeExtHeader_spec chunks o.headerFd
    simp only [Outputs.opened, Option.elim_some, hf, hout, hrest, and_self]

theorem openOutputs_front (h : Readable header) (hok : openOutputs refused header antIDs = .ok o) :
    (∀ iK < antIDs.length, o.out iK = some (if iK = 0 then header.elim [] HeaderFile.content else [])) ∧
      o.headerFd.rest = if antIDs = [] then header.elim [] HeaderFile.content else [] := by
  induction antIDs using List.reverseRecOn generalizing o with
  | nil =>
    cases hok
    exact ⟨fun iK hiK => absurd hiK (Nat.not_lt_zero iK), rfl⟩
  | append_singleton antIDs antID ih =>
    rw [openOutputs_snoc] at hok
    rcases openOutputs_cases refused header antIDs with ⟨-, o', ho', hopened⟩ | ⟨-, out, herr, -⟩
    swap
    · rw [herr] at hok
      cases hok
    obtain ⟨hout, hrest⟩ := ih ho'
    rw [ho'] at hok
    have hok' : o'.openOutput refused header antIDs.length antID = .ok o := hok
    by_cases hbad : refused (.txt antID) = true ∨ refused (.bin antID) = true ∨ .txt antID ∈ o'.names
    · rw [Outputs.openOutput_error hbad] at hok'
      cases hok'
    · simp only [not_or, Bool.not_eq_true] at hbad
      have hbin : .bin antID ∉ o'.names := fun hmem =>
        hbad.2.2 ((hopened.txt antID).mpr ((hopened.bin antID).mp hmem))
      rw [Outputs.openOutput_ok hbad.1 hbad.2.1 hbad.2.2 hbin] at hok'
      obtain rfl := Except.ok.inj hok'
      have hnone : header = none → o'.headerFd.rest = [] := by
        rintro rfl
        rw [hrest]
        split <;> rfl
      obtain ⟨hfront, hend⟩ := opened_front h hnone antIDs.length antID
      rw [hfront, hend, hrest]
      refine ⟨fun iK hiK => ?_, by simp⟩
      by_cases hi : iK = antIDs.length
      · subst hi
        rw [Function.update_self]
        simp only [List.length_eq_zero_iff]
      · rw [List.length_append, List.length_singleton] at hiK
        rw [Function.update_of_ne hi, hout iK (by omega)]

end VoltRec
