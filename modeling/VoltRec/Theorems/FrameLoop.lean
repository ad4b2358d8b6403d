import VoltRec.Theorems.EightBits
import VoltRec.Theorems.OutputFiles

/-! What the frame loop writes, and how long it runs. Every full pass takes a frame off the input and adds one to each
    output, so the loop ends after as many frames as the input holds. A frame that one call of `read` cannot move
    ends it at once; a frame of no bytes is never short, and the loop goes on for ever. -/

namespace VoltRec

variable {build : Build} {nAnts nChanpkts : Nat}

theorem inBufferLen_pos : 0 < inBufferLen nAnts nChanpkts ↔ 0 < nAnts ∧ 0 < nChanpkts := by
  simp [inBufferLen, rxDataLen, Nat.pos_iff_ne_zero]

/-- One call of `read` moves a frame, and one call of `write` an output buffer. -/
structure Build.InOneCall (build : Build) (nAnts nChanpkts : Nat) : Prop where
  read : inBufferLen nAnts nChanpkts ≤ maxRwCount
  write : build.outBufferLen nChanpkts ≤ maxRwCount

theorem Build.InOneCall.fits (h : build.InOneCall nAnts nChanpkts) : build.Fits nAnts nChanpkts :=
  ⟨h.read.trans (by decide), h.write.trans (by decide)⟩

/-! ### Frames -/

/-- What antenna `iK` gets from frame `T` of a body. -/
def convertedFrame (build : Build) (nAnts nChanpkts : Nat) (body : List UInt8) (dataout : Nat → Nat → UInt8)
    (iK T : Nat) : List UInt8 :=
  Memory.slice (convert build (fun x => body.getD (T * inBufferLen nAnts nChanpkts + x) 0) dataout nAnts nChanpkts iK)
    0 (build.outBufferLen nChanpkts)

/-- The converted data of antenna `iK`, of all the frames that the body holds. -/
def convertedData (build : Build) (nAnts nChanpkts : Nat) (body : List UInt8) (dataout : Nat → Nat → UInt8)
    (iK : Nat) : List UInt8 :=
  (List.range (body.length / inBufferLen nAnts nChanpkts)).flatMap
    (convertedFrame build nAnts nChanpkts body dataout iK)

theorem length_convertedFrame (build : Build) (nAnts nChanpkts : Nat) (body : List UInt8)
    (dataout : Nat → Nat → UInt8) (iK T : Nat) :
    (convertedFrame build nAnts nChanpkts body dataout iK T).length = build.outBufferLen nChanpkts :=
  Memory.length_slice

theorem length_convertedData (build : Build) (nAnts nChanpkts : Nat) (body : List UInt8)
    (dataout : Nat → Nat → UInt8) (iK : Nat) :
    (convertedData build nAnts nChanpkts body dataout iK).length =
      body.length / inBufferLen nAnts nChanpkts * build.outBufferLen nChanpkts := by
  rw [convertedData, Radix.length_flatMap fun T _ => length_convertedFrame build nAnts nChanpkts body dataout iK T,
    List.length_range]

theorem convertedFrame_drop (build : Build) (nAnts nChanpkts : Nat) (body : List UInt8)
    (dataout : Nat → Nat → UInt8) (iK T : Nat) :
    convertedFrame build nAnts nChanpkts (body.drop (T * inBufferLen nAnts nChanpkts)) dataout iK 0 =
      convertedFrame build nAnts nChanpkts body dataout iK T := by
  simp only [convertedFrame, List.getD_eq_getElem?_getD, List.getElem?_drop, Nat.zero_mul, Nat.zero_add]

namespace Conversion

variable {s : Conversion} {len : Nat}

/-! ### One pass -/

theorem readCount_lt_iff : s.readCount len < len ↔ maxRwCount < len ∨ s.rest.length < len := by
  rw [readCount]
  omega

theorem read_rest (h : len ≤ maxRwCount) : (s.read len).rest = s.rest.drop len := by
  show s.rest.drop (s.readCount len) = _
  rcases Nat.le_total len s.rest.length with hle | hle
  · rw [readCount, Nat.min_eq_left h, Nat.min_eq_left hle]
  · rw [readCount, Nat.min_eq_left h, Nat.min_eq_right hle, List.drop_length, List.drop_of_length_le hle]

theorem read_datain (h : len ≤ maxRwCount) (hlen : len ≤ s.rest.length) {x : Nat} (hx : x < len) :
    (s.read len).datain x = s.rest.getD x 0 := by
  have hcount : x < s.readCount len := by
    rw [readCount]
    omega
  have hcopy := @Memory.copy_add _ s.datain 0 _ (fun j : Fin (s.readCount len) =>
    s.rest.get ⟨j, Nat.lt_of_lt_of_le j.isLt (Nat.min_le_right ..)⟩) ⟨x, hcount⟩
  rw [Nat.zero_add] at hcopy
  refine hcopy.trans ?_
  rw [List.getD_eq_getElem?_getD, List.getElem?_eq_getElem (hx.trans_le hlen)]
  rfl

theorem foldl_write (l : List Nat) (hl : l.Nodup) (h : len ≤ maxRwCount) (s : Conversion) :
    ∀ a ∈ l, (l.foldl (fun s iK => s.write iK len) s).out a =
      (s.out a).map fun file => file ++ Memory.slice (s.dataout a) 0 len := by
  induction l generalizing s with
  | nil => exact fun a ha => absurd ha List.not_mem_nil
  | cons i l ih =>
    intro a ha
    obtain ⟨hi, hl⟩ := List.nodup_cons.mp hl
    rw [List.foldl_cons]
    rcases List.mem_cons.mp ha with rfl | ha
    · rw [Loop.foldl_keep (fun s : Conversion => s.out a)]
      · simp only [write, Function.update_self, writeCount, Nat.min_eq_left h]
      · exact fun j hj s => Function.update_of_ne (fun h => hi (by rwa [h])) ..
    · rw [ih hl _ a ha]
      have hne : a ≠ i := fun h => hi (h ▸ ha)
      simp only [write, Function.update_of_ne hne]

theorem frame_ok (h : nAnts = 0 ∨ build.outBufferLen nChanpkts ≤ maxRwCount) (s : Conversion) :
    ∃ t, s.frame build nAnts nChanpkts = .ok t ∧ t.rest = s.rest ∧ ∀ iK < nAnts,
      t.out iK = (s.out iK).map fun file => file ++
        Memory.slice (convert build s.datain s.dataout nAnts nChanpkts iK) 0 (build.outBufferLen nChanpkts) := by
  rcases h with rfl | h
  · exact ⟨_, rfl, rfl, fun iK hiK => absurd hiK (Nat.not_lt_zero iK)⟩
  · have hfull : ¬writeCount (build.outBufferLen nChanpkts) < build.outBufferLen nChanpkts := by
      rw [writeCount]
      omega
    refine ⟨_, ?_, ?_, fun iK hiK => foldl_write (List.range nAnts) List.nodup_range h
      { s with dataout := convert build s.datain s.dataout nAnts nChanpkts } iK (List.mem_range.mpr hiK)⟩
    · simp only [frame, if_neg hfull]
      exact List.foldlM_pure
    · refine Loop.foldl_keep (fun s : Conversion => s.rest) (fun _ _ _ => ?_) _
      rfl

/-- The first output takes the first part of what it should get. -/
theorem frame_writeFailed (hA : 0 < nAnts) (h : maxRwCount < build.outBufferLen nChanpkts) (s : Conversion) :
    ∃ t v, s.frame build nAnts nChanpkts = .error (.writeFailed t) ∧
      t.out = Function.update s.out 0 ((s.out 0).map fun file => file ++ Memory.slice v 0 maxRwCount) := by
  have hshort : writeCount (build.outBufferLen nChanpkts) < build.outBufferLen nChanpkts := by
    rw [writeCount]
    omega
  obtain ⟨n, rfl⟩ : ∃ n, nAnts = n + 1 := ⟨nAnts - 1, by omega⟩
  refine ⟨{ s with dataout := convert build s.datain s.dataout (n + 1) nChanpkts }.write 0
    (build.outBufferLen nChanpkts), convert build s.datain s.dataout (n + 1) nChanpkts 0, ?_, ?_⟩
  · simp only [frame, List.range_succ_eq_map, List.foldlM_cons, if_pos hshort]
    rfl
  · simp only [write, writeCount, Nat.min_eq_right h.le]

theorem pass_done (h : s.readCount (inBufferLen nAnts nChanpkts) < inBufferLen nAnts nChanpkts) :
    s.pass build nAnts nChanpkts = .error (.done (s.read (inBufferLen nAnts nChanpkts))) := by
  simp only [pass, if_pos h]

theorem pass_full (h : ¬s.readCount (inBufferLen nAnts nChanpkts) < inBufferLen nAnts nChanpkts) :
    s.pass build nAnts nChanpkts = (s.read (inBufferLen nAnts nChanpkts)).frame build nAnts nChanpkts := by
  simp only [pass, if_neg h]

/-- A pass over a whole frame, whatever the output buffers held before. -/
theorem pass_ok (hone : build.InOneCall nAnts nChanpkts) (hlen : inBufferLen nAnts nChanpkts ≤ s.rest.length)
    (dataout : Nat → Nat → UInt8) :
    ∃ t, s.pass build nAnts nChanpkts = .ok t ∧ t.rest = s.rest.drop (inBufferLen nAnts nChanpkts) ∧ ∀ iK < nAnts,
      t.out iK = (s.out iK).map fun file => file ++ convertedFrame build nAnts nChanpkts s.rest dataout iK 0 := by
  have hread := hone.read
  have hfull : ¬s.readCount (inBufferLen nAnts nChanpkts) < inBufferLen nAnts nChanpkts := by
    rw [readCount_lt_iff]
    omega
  obtain ⟨t, ht, hrest, hout⟩ := @frame_ok build _ nChanpkts (Or.inr hone.write)
    (s.read (inBufferLen nAnts nChanpkts))
  refine ⟨t, (pass_full hfull).trans ht, hrest.trans (read_rest hread), fun iK hiK => ?_⟩
  rw [hout iK hiK]
  have hframe : Memory.slice (convert build (s.read (inBufferLen nAnts nChanpkts)).datain
      (s.read (inBufferLen nAnts nChanpkts)).dataout nAnts nChanpkts iK) 0 (build.outBufferLen nChanpkts) =
      convertedFrame build nAnts nChanpkts s.rest dataout iK 0 := by
    refine Memory.slice_congr fun x hx => convert_congr hone.fits (fun y hy => ?_) _ _ hiK hx
    rw [read_datain hread hlen hy, Nat.zero_mul, Nat.zero_add]
  rw [hframe]
  rfl

/-! ### The loop -/

/-- Full passes add the frames to the outputs, one after the other. -/
theorem frameLoop_full (hone : build.InOneCall nAnts nChanpkts) (dataout : Nat → Nat → UInt8) (s : Conversion)
    {frames : Nat} (hframes : frames * inBufferLen nAnts nChanpkts ≤ s.rest.length) :
    ∃ t, frameLoop build nAnts nChanpkts frames s = .ok t ∧
      t.rest = s.rest.drop (frames * inBufferLen nAnts nChanpkts) ∧ ∀ iK < nAnts,
      t.out iK = (s.out iK).map fun file => file ++
        (List.range frames).flatMap (convertedFrame build nAnts nChanpkts s.rest dataout iK) := by
  refine Loop.passes_run (I := fun i (t : Conversion) =>
    t.rest = s.rest.drop (i * inBufferLen nAnts nChanpkts) ∧ ∀ iK < nAnts,
    t.out iK = (s.out iK).map fun file => file ++
      (List.range i).flatMap (convertedFrame build nAnts nChanpkts s.rest dataout iK)) ⟨by simp, by simp⟩ ?_
  rintro i hi t ⟨hrest, hout⟩
  have hle : (i + 1) * inBufferLen nAnts nChanpkts ≤ frames * inBufferLen nAnts nChanpkts :=
    Nat.mul_le_mul_right _ hi
  rw [Nat.succ_mul] at hle
  obtain ⟨t', ht', hrest', hout'⟩ := pass_ok (s := t) hone
    (by rw [hrest, List.length_drop]; omega) dataout
  refine ⟨t', ht', ?_, fun iK hiK => ?_⟩
  · rw [hrest', hrest, List.drop_drop, Nat.succ_mul]
  · rw [hout' iK hiK, hout iK hiK, hrest, convertedFrame_drop, Option.map_map, List.range_succ, List.flatMap_append,
      List.flatMap_singleton]
    simp only [Function.comp_def, List.append_assoc]

theorem frameLoop_ends (hone : build.InOneCall nAnts nChanpkts) (hpos : 0 < inBufferLen nAnts nChanpkts)
    (dataout : Nat → Nat → UInt8) (s : Conversion) :
    ∃ t, frameLoop build nAnts nChanpkts (s.rest.length / inBufferLen nAnts nChanpkts) s = .ok t ∧
      t.pass build nAnts nChanpkts = .error (.done (t.read (inBufferLen nAnts nChanpkts))) ∧ ∀ iK < nAnts,
      t.out iK = (s.out iK).map fun file => file ++ convertedData build nAnts nChanpkts s.rest dataout iK := by
  obtain ⟨t, ht, hrest, hout⟩ := frameLoop_full hone dataout s (Nat.div_mul_le_self _ _)
  refine ⟨t, ht, pass_done (readCount_lt_iff.mpr (Or.inr ?_)), hout⟩
  have hmod := Nat.mod_lt s.rest.length hpos
  have hdiv := Nat.div_add_mod' s.rest.length (inBufferLen nAnts nChanpkts)
  rw [hrest, List.length_drop]
  omega

/-- Frames of no bytes come without end. -/
theorem frameLoop_empty (h : inBufferLen nAnts nChanpkts = 0) (n : Nat) (s : Conversion) :
    ∃ t, frameLoop build nAnts nChanpkts n s = .ok t ∧ ∀ iK < nAnts, t.out iK = s.out iK := by
  have hnone : nAnts = 0 ∨ build.outBufferLen nChanpkts = 0 := by
    simp only [inBufferLen, Nat.mul_eq_zero, rxDataLen] at h
    rcases h with (h | h) | h
    · cases h
    · exact Or.inl h
    · exact Or.inr (by rw [h, Build.outBufferLen, Nat.mul_zero, Nat.zero_mul])
  refine Loop.passes_run (I := fun _ (t : Conversion) => ∀ iK < nAnts, t.out iK = s.out iK) (fun _ _ => rfl) ?_
  rintro i - t hout
  obtain ⟨t', ht', -, hout'⟩ := @frame_ok build _ nChanpkts
    (hnone.imp_right fun h0 => h0.le.trans (Nat.zero_le _)) (t.read (inBufferLen nAnts nChanpkts))
  refine ⟨t', (pass_full (by omega)).trans ht', fun iK hiK => ?_⟩
  have h0 : build.outBufferLen nChanpkts = 0 := hnone.resolve_left (by omega)
  rw [hout' iK hiK, ← hout iK hiK, h0]
  simp only [Memory.slice, List.range_zero, List.map_nil, List.append_nil]
  exact Option.map_id'

end Conversion

/-! ### Files -/

section
variable {refused : OutName → Bool} {header : Option HeaderFile} {file body : List UInt8} {h : InHeader}
  {datain : Nat → UInt8} {dataout : Nat → Nat → UInt8} {o : Outputs} {e : Exit}

theorem converterMain_ok (hfile : readHeader file = .ok (h, body)) (ho : openOutputs refused header h.antIDs = .ok o)
    (n : Nat) : converterMain build refused header file datain dataout n =
      Conversion.frameLoop build h.nAnts h.nChanpkts n ⟨body, datain, dataout, o.out⟩ := by
  rw [converterMain, hfile]
  simp only [Except.mapError, bind, Except.bind, ho]

theorem converterMain_error (hfile : readHeader file = .ok (h, body))
    (ho : openOutputs refused header h.antIDs = .error e) (n : Nat) :
    converterMain build refused header file datain dataout n = .error e := by
  rw [converterMain, hfile]
  simp only [Except.mapError, bind, Except.bind, ho]

end

end VoltRec
