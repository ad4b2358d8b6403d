import VoltRec.Theorems.FrameLoop
import VoltRec.Theorems.Header

/-! The outputs with an external header. The first antenna has the header in front of its data; the others have it
    only where it is empty. -/

namespace VoltRec

variable {build : Build} {nAnts nChanpkts : Nat}

/-! ### What the outputs get -/

def Exit.out : Exit → Nat → Option (List UInt8)
  | .header _ => fun _ => none
  | .openFailed out => out
  | .writeFailed s => s.out
  | .done s => s.out

/-- What the output file of antenna `iK` has got, on the way or at the end. -/
def outputOf (r : Except Exit Conversion) (iK : Nat) : Option (List UInt8) :=
  match r with
  | .ok s => s.out iK
  | .error e => e.out iK

/-- What a run of the frame loop adds to the outputs in the end: all the converted data, or less. -/
structure Added (build : Build) (nAnts nChanpkts : Nat) (body : List UInt8) (dataout : Nat → Nat → UInt8)
    (data : Nat → List UInt8) : Prop where
  all : body.length / inBufferLen nAnts nChanpkts = 0 ∨ build.InOneCall nAnts nChanpkts →
    ∀ iK, data iK = convertedData build nAnts nChanpkts body dataout iK
  less : ¬(body.length / inBufferLen nAnts nChanpkts = 0 ∨ build.InOneCall nAnts nChanpkts) →
    (data 0).length < (convertedData build nAnts nChanpkts body dataout 0).length
  le : ∀ iK, (data iK).length ≤ (convertedData build nAnts nChanpkts body dataout iK).length

theorem added_all (build : Build) (nAnts nChanpkts : Nat) (body : List UInt8) (dataout : Nat → Nat → UInt8)
    (h : body.length / inBufferLen nAnts nChanpkts = 0 ∨ build.InOneCall nAnts nChanpkts) :
    Added build nAnts nChanpkts body dataout (convertedData build nAnts nChanpkts body dataout) :=
  ⟨fun _ _ => rfl, fun hnot => absurd h hnot, fun _ => Nat.le_refl _⟩

theorem convertedData_nil {body : List UInt8} (h : body.length / inBufferLen nAnts nChanpkts = 0)
    (dataout : Nat → Nat → UInt8) (iK : Nat) : convertedData build nAnts nChanpkts body dataout iK = [] :=
  List.length_eq_zero_iff.mp (by rw [length_convertedData, h, Nat.zero_mul])

namespace Conversion

/-- What the outputs get in the end behind what they have. -/
def Gets (build : Build) (nAnts nChanpkts : Nat) (s : Conversion) (data : Nat → List UInt8) : Prop :=
  ∃ N, ∀ n, N ≤ n → ∀ iK < nAnts,
    outputOf (frameLoop build nAnts nChanpkts n s) iK = (s.out iK).map fun file => file ++ data iK

variable {s : Conversion}

theorem map_append_nil (file : Option (List UInt8)) : (file.map fun file => file ++ []) = file := by
  cases file <;> simp

theorem gets_empty (h : inBufferLen nAnts nChanpkts = 0) : Gets build nAnts nChanpkts s fun _ => [] := by
  refine ⟨0, fun n _ iK hiK => ?_⟩
  obtain ⟨t, ht, hout⟩ := @frameLoop_empty build _ _ h n s
  rw [ht, map_append_nil]
  exact hout iK hiK

/-- A first `read` that is short. -/
theorem gets_done (h : s.readCount (inBufferLen nAnts nChanpkts) < inBufferLen nAnts nChanpkts) :
    Gets build nAnts nChanpkts s fun _ => [] := by
  refine ⟨1, fun n hn iK _ => ?_⟩
  rw [frameLoop, Loop.passes_ends rfl (pass_done h) hn, map_append_nil]
  rfl

/-- A first `write` that is short. -/
theorem gets_writeFailed (hA : 0 < nAnts)
    (hread : ¬s.readCount (inBufferLen nAnts nChanpkts) < inBufferLen nAnts nChanpkts)
    (hwrite : maxRwCount < build.outBufferLen nChanpkts) :
    ∃ v, Gets build nAnts nChanpkts s (Function.update (fun _ => []) 0 (Memory.slice v 0 maxRwCount)) := by
  obtain ⟨t, v, ht, hout⟩ := frame_writeFailed hA hwrite (s.read (inBufferLen nAnts nChanpkts))
  refine ⟨v, 1, fun n hn iK _ => ?_⟩
  rw [frameLoop, Loop.passes_ends rfl ((pass_full hread).trans ht) hn]
  show t.out iK = _
  rw [hout]
  by_cases hi : iK = 0
  · subst hi
    rw [Function.update_self, Function.update_self]
    rfl
  · rw [Function.update_of_ne hi, Function.update_of_ne hi, map_append_nil]
    rfl

theorem gets_all (hone : build.InOneCall nAnts nChanpkts) (hpos : 0 < inBufferLen nAnts nChanpkts)
    (dataout : Nat → Nat → UInt8) :
    Gets build nAnts nChanpkts s (convertedData build nAnts nChanpkts s.rest dataout) := by
  obtain ⟨t, ht, hend, hout⟩ := frameLoop_ends hone hpos dataout s
  refine ⟨s.rest.length / inBufferLen nAnts nChanpkts + 1, fun n hn iK hiK => ?_⟩
  rw [frameLoop, Loop.passes_ends ht hend hn]
  exact hout iK hiK

theorem outBufferLen_pos (hn : 0 < nChanpkts) : 0 < build.outBufferLen nChanpkts := by
  cases build <;> simp only [Build.outBufferLen, Build.bitsMultiplayer, rxDataLen] <;> omega

theorem gets_added (build : Build) (nAnts nChanpkts : Nat) (dataout : Nat → Nat → UInt8) (s : Conversion) :
    ∃ data, Added build nAnts nChanpkts s.rest dataout data ∧ Gets build nAnts nChanpkts s data := by
  rcases Nat.eq_zero_or_pos (s.rest.length / inBufferLen nAnts nChanpkts) with h0 | hpos
  · have hnil : convertedData build nAnts nChanpkts s.rest dataout = fun _ => [] :=
      funext (convertedData_nil h0 dataout)
    refine ⟨_, added_all build nAnts nChanpkts s.rest dataout (Or.inl h0), ?_⟩
    rw [hnil]
    rcases Nat.div_eq_zero_iff.mp h0 with hzero | hlt
    · exact gets_empty hzero
    · exact gets_done (readCount_lt_iff.mpr (Or.inr hlt))
  have hlen : 0 < inBufferLen nAnts nChanpkts := Nat.pos_of_ne_zero fun h0 => by
    rw [h0, Nat.div_zero] at hpos
    exact absurd hpos (Nat.lt_irrefl 0)
  have hge : inBufferLen nAnts nChanpkts ≤ s.rest.length := (Nat.div_pos_iff.mp hpos).2
  obtain ⟨hA, hn⟩ := inBufferLen_pos.mp hlen
  have hdata : build.outBufferLen nChanpkts ≤ (convertedData build nAnts nChanpkts s.rest dataout 0).length := by
    rw [length_convertedData]
    exact Nat.le_mul_of_pos_left _ hpos
  by_cases hread : maxRwCount < inBufferLen nAnts nChanpkts
  · refine ⟨fun _ => [], ⟨?_, fun _ => (outBufferLen_pos hn).trans_le hdata, fun _ => Nat.zero_le _⟩,
      gets_done (readCount_lt_iff.mpr (Or.inl hread))⟩
    rintro (h0 | hone)
    · omega
    · exact absurd hone.read (Nat.not_le_of_lt hread)
  by_cases hwrite : maxRwCount < build.outBufferLen nChanpkts
  · have hfull : ¬s.readCount (inBufferLen nAnts nChanpkts) < inBufferLen nAnts nChanpkts := by
      rw [readCount_lt_iff]
      omega
    obtain ⟨v, hgets⟩ := gets_writeFailed hA hfull hwrite
    have hless := hwrite.trans_le hdata
    refine ⟨_, ⟨?_, fun _ => ?_, fun iK => ?_⟩, hgets⟩
    · rintro (h0 | hone)
      · omega
      · exact absurd hone.write (Nat.not_le_of_lt hwrite)
    · rwa [Function.update_self, Memory.length_slice]
    · by_cases hi : iK = 0
      · subst hi
        rw [Function.update_self, Memory.length_slice]
        exact hless.le
      · rw [Function.update_of_ne hi]
        exact Nat.zero_le _
  · have hone : build.InOneCall nAnts nChanpkts := ⟨Nat.le_of_not_lt hread, Nat.le_of_not_lt hwrite⟩
    exact ⟨_, added_all build nAnts nChanpkts s.rest dataout (Or.inr hone), gets_all hone hlen dataout⟩

end Conversion

/-! ### Files -/

/-- In the end the output of each antenna has the content of the header file, and behind it the converted data. -/
def HeadersFirst (build : Build) (refused : OutName → Bool) (content : List UInt8) (chunks : Nat → Nat)
    (file : List UInt8) (datain : Nat → UInt8) (dataout : Nat → Nat → UInt8) : Prop :=
  ∀ h body, readHeader file = .ok (h, body) → ∃ N, ∀ n, N ≤ n → ∀ iK < h.nAnts,
    outputOf (converterMain build refused (some ⟨content, fun k => some (chunks k)⟩) file datain dataout n) iK =
      some (content ++ convertedData build h.nAnts h.nChanpkts body dataout iK)

section
variable {refused : OutName → Bool} {content file body : List UInt8} {chunks : Nat → Nat} {h : InHeader}
  {datain : Nat → UInt8} {dataout : Nat → Nat → UInt8}

/-- The first antenna gets the header, and all of them what the frame loop adds. -/
theorem outputs_get (hfile : readHeader file = .ok (h, body)) (hc : Creatable refused h.antIDs) :
    ∃ data, Added build h.nAnts h.nChanpkts body dataout data ∧ ∃ N, ∀ n, N ≤ n → ∀ iK < h.nAnts,
      outputOf (converterMain build refused (some ⟨content, fun k => some (chunks k)⟩) file datain dataout n) iK =
        some ((if iK = 0 then content else []) ++ data iK) := by
  rcases openOutputs_cases refused (some ⟨content, fun k => some (chunks k)⟩) h.antIDs with
    ⟨-, o, ho, -⟩ | ⟨hnot, -⟩
  · have hread : Readable (some ⟨content, fun k => some (chunks k)⟩) := by
      rintro f hf
      exact ⟨chunks, Option.some.inj hf ▸ rfl⟩
    have hfront := (openOutputs_front hread ho).1
    obtain ⟨data, hadded, N, hout⟩ := Conversion.gets_added build h.nAnts h.nChanpkts dataout
      ⟨body, datain, dataout, o.out⟩
    refine ⟨data, hadded, N, fun n hn iK hiK => ?_⟩
    have hopen : o.out iK = some (if iK = 0 then content else []) := hfront iK (length_antIDs hfile ▸ hiK)
    rw [converterMain_ok hfile ho, hout n hn iK hiK]
    show (o.out iK).map _ = _
    rw [hopen, Option.map_some]
  · exact absurd hc hnot

/-- Otherwise some antenna is without its file when the program ends. -/
theorem output_missing (hfile : readHeader file = .ok (h, body)) (hc : ¬Creatable refused h.antIDs) :
    ∃ iK < h.nAnts, ∀ n,
      outputOf (converterMain build refused (some ⟨content, fun k => some (chunks k)⟩) file datain dataout n) iK =
        none := by
  rcases openOutputs_cases refused (some ⟨content, fun k => some (chunks k)⟩) h.antIDs with
    ⟨hall, -⟩ | ⟨-, out, ho, iK, hiK, hnone⟩
  · exact absurd hall hc
  · refine ⟨iK, length_antIDs hfile ▸ hiK, fun n => ?_⟩
    rw [converterMain_error hfile ho]
    exact hnone

end

/-- All outputs have the external header in front of their data if and only if they can all be created, there is one
    antenna at most or no byte in the header file, and there is no frame or the calls of `read` and `write` are
    complete. -/
theorem headersFirst_iff (build : Build) (refused : OutName → Bool) (content : List UInt8) (chunks : Nat → Nat)
    (file : List UInt8) (datain : Nat → UInt8) (dataout : Nat → Nat → UInt8) :
    HeadersFirst build refused content chunks file datain dataout ↔
      ∀ h body, readHeader file = .ok (h, body) → Creatable refused h.antIDs ∧ (h.nAnts ≤ 1 ∨ content = []) ∧
        (body.length / inBufferLen h.nAnts h.nChanpkts = 0 ∨ build.InOneCall h.nAnts h.nChanpkts) := by
  refine forall₃_congr fun h body hfile => ?_
  by_cases hc : Creatable refused h.antIDs
  · obtain ⟨data, hadded, N, hget⟩ := @outputs_get build refused content _ _ chunks _ datain dataout hfile hc
    constructor
    · rintro ⟨N', hfirst⟩
      have hsame : ∀ iK < h.nAnts, (if iK = 0 then content else []) ++ data iK =
          content ++ convertedData build h.nAnts h.nChanpkts body dataout iK := fun iK hiK =>
        Option.some.inj ((hget _ (Nat.le_max_left N N') iK hiK).symm.trans
          (hfirst _ (Nat.le_max_right N N') iK hiK))
      refine ⟨hc, ?_, ?_⟩
      · refine or_iff_not_imp_left.mpr fun hmany => ?_
        have hsecond := congrArg List.length (hsame 1 (by omega))
        have hle := hadded.le 1
        rw [if_neg Nat.one_ne_zero, List.nil_append, List.length_append] at hsecond
        exact List.length_eq_zero_iff.mp (by omega)
      · by_contra hnot
        have hA : 0 < h.nAnts := Nat.pos_of_ne_zero fun h0 => hnot (Or.inl (by simp [inBufferLen, h0]))
        have hfirst := congrArg List.length (hsame 0 hA)
        have hless := hadded.less hnot
        rw [if_pos rfl, List.length_append, List.length_append] at hfirst
        omega
    · rintro ⟨-, hone, hall⟩
      refine ⟨N, fun n hn iK hiK => ?_⟩
      rw [hget n hn iK hiK, hadded.all hall]
      rcases hone with hone | rfl
      · rw [if_pos (by omega)]
      · rw [ite_self]
  · obtain ⟨iK, hiK, hnone⟩ := @output_missing build refused content _ _ chunks _ datain dataout hfile hc
    refine iff_of_false ?_ fun hall => hc hall.1
    rintro ⟨N, hfirst⟩
    exact absurd ((hnone N).symm.trans (hfirst N (Nat.le_refl N) iK hiK)) (by simp)

/-- Two antennas, one channel packet and no body. -/
def twoAntennas : List UInt8 :=
  (writeHeader { nAnts := 2, antNumbers := [1, 2], nchans := 1, firstChan := 0, packetStart := 0 }).bytes

/-- The second antenna gets none of a header of one byte. -/
theorem secondAntenna_noHeader : ¬∀ (build : Build) (refused : OutName → Bool) (content : List UInt8)
    (chunks : Nat → Nat) (file : List UInt8) (datain : Nat → UInt8) (dataout : Nat → Nat → UInt8),
    HeadersFirst build refused content chunks file datain dataout := by
  intro hall
  have hfile : readHeader twoAntennas = .ok (⟨2, [1, 2], 1, 0, 0⟩, []) := by decide
  obtain ⟨N, hfirst⟩ := hall .fourBits (fun _ => false) [7] (fun _ => 1) twoAntennas (fun _ => 0) (fun _ _ => 0) _ _
    hfile
  have hread : Readable (some ⟨[7], fun _ => some 1⟩) := by
    rintro f hf
    exact ⟨fun _ => 1, Option.some.inj hf ▸ rfl⟩
  have hsecond := hfirst (N + 1) (Nat.le_succ N) 1 (by decide)
  rcases openOutputs_cases (fun _ => false) (some ⟨[7], fun _ => some 1⟩) [1, 2] with ⟨-, o, ho, -⟩ | ⟨hc, -⟩
  · have hopen : o.out 1 = some [] := (openOutputs_front hread ho).1 1 (by decide)
    have hshort : ([] : List UInt8).length < inBufferLen 2 1 := by decide
    rw [converterMain_ok hfile ho, Conversion.frameLoop,
      Loop.passes_error (Conversion.pass_done (Conversion.readCount_lt_iff.mpr (Or.inr hshort)))] at hsecond
    have hnil := hopen.symm.trans hsecond
    simp at hnil
  · exact hc ⟨by decide, fun _ _ => ⟨rfl, rfl⟩⟩

end VoltRec
