import VoltRec.RawspecDump
import VoltRec.Lib.Transition
import Mathlib.Data.List.Forall2

/-! The output files hold the dumps. While an output thread writes, the library does not touch its power buffer, so a
    file is the dumps of its product one after the other, each as it was at the second callback. -/

namespace VoltRec.Rawspec

open Memory

def Event.dump? : Event → Option (List UInt8)
  | .postDump dump => some dump
  | _ => none

/-- The dumps for which an output thread was created, in order. -/
def dumps (tr : List Event) : List (List UInt8) := tr.filterMap Event.dump?

/-- Each dump is in the file in order, up to a write that failed. -/
structure Recorded (tr : List Event) (ds parts : List (List UInt8)) : Prop where
  prefixes : List.Forall₂ (· <+: ·) parts ds
  whole : Event.writeFails ∉ tr → parts = ds

variable {size : Nat} {file0 : List UInt8} {p p' : Product} {e : Event} {tr : List Event} {ds parts : List (List UInt8)}
  {dump part : List UInt8}

theorem Recorded.mono (h : Recorded tr ds parts) (e : Event) : Recorded (tr ++ [e]) ds parts :=
  ⟨h.prefixes, fun hno => h.whole fun hmem => hno (List.mem_append_left _ hmem)⟩

theorem Recorded.concat (h : Recorded tr ds parts) (hpart : part <+: dump)
    (hwhole : Event.writeFails ∉ tr → part = dump) : Recorded tr (ds ++ [dump]) (parts ++ [part]) where
  prefixes := List.rel_append h.prefixes (.cons hpart .nil)
  whole hno := by rw [h.whole hno, hwhole hno]

/-- What is in the file of a product, where an output thread has written the first part of the last dump. -/
def Holds (size : Nat) (file0 : List UInt8) (tr : List Event) (p : Product) : Prop :=
  match p.outputThread with
  | none => ∃ parts, p.file = file0 ++ parts.flatten ∧ Recorded tr (dumps tr) parts
  | some t => ∃ ds parts, dumps tr = ds ++ [slice p.hPwrbuf 0 size] ∧
      p.file = file0 ++ parts.flatten ++ slice p.hPwrbuf 0 t.buf ∧ t.buf + t.bytesRemaining = size ∧
      Recorded tr ds parts

/-- The library and the output thread never have the power buffer at the same time. -/
structure Written (size : Nat) (file0 : List UInt8) (tr : List Event) (p : Product) : Prop where
  apart : p.dumping = true → p.outputThread = none
  valid : p.outputThread ≠ none → p.outputThreadValid = true
  holds : Holds size file0 tr p

theorem Written.joined (h : Written size file0 tr p) (join : p.joinable) : p.outputThread = none := by
  by_contra hne
  exact hne (join (h.valid hne))

theorem dumps_concat (tr : List Event) (e : Event) : dumps (tr ++ [e]) = dumps tr ++ e.dump?.toList := by
  cases e <;> simp [dumps, Event.dump?]

theorem dumps_quiet (h : e.dump? = none) : dumps (tr ++ [e]) = dumps tr := by
  simp [dumps_concat, h]

/-- An event that is no dump and leaves the buffer, the file and the thread alone. -/
theorem Holds.quiet (h : Holds size file0 tr p) (he : e.dump? = none) (hthread : p'.outputThread = p.outputThread)
    (hbuf : p.outputThread = none ∨ p'.hPwrbuf = p.hPwrbuf) (hfile : p'.file = p.file) :
    Holds size file0 (tr ++ [e]) p' := by
  unfold Holds at h ⊢
  rw [hthread]
  cases ht : p.outputThread with
  | none =>
    rw [ht] at h
    obtain ⟨parts, hparts, hrec⟩ := h
    exact ⟨parts, hfile.trans hparts, by rw [dumps_quiet he]; exact hrec.mono e⟩
  | some t =>
    rw [ht] at h
    obtain ⟨ds, parts, hds, hparts, hsize, hrec⟩ := h
    have hsame : p'.hPwrbuf = p.hPwrbuf := hbuf.resolve_left (by rw [ht]; nofun)
    exact ⟨ds, parts, by rw [dumps_quiet he, hds, hsame], by rw [hfile, hparts, hsame], hsize, hrec.mono e⟩

/-- The output thread returns, with all bytes written or after a write that failed. -/
theorem Holds.returns {t : OutputThread} (h : Holds size file0 tr p) (ht : p.outputThread = some t)
    (he : e.dump? = none) (hend : e = .writeFails ∨ t.bytesRemaining = 0) :
    Holds size file0 (tr ++ [e]) { p with outputThread := none } := by
  simp only [Holds, ht] at h ⊢
  obtain ⟨ds, parts, hds, hparts, hsize, hrec⟩ := h
  refine ⟨parts ++ [slice p.hPwrbuf 0 t.buf], ?_, ?_⟩
  · rw [hparts, List.flatten_append, List.flatten_singleton, List.append_assoc]
  · rw [dumps_quiet he, hds]
    refine (hrec.mono e).concat ?_ fun hno => ?_
    · rw [← hsize, slice_add]
      exact List.prefix_append _ _
    · have hall := hend.resolve_left fun heq => hno (by simp [heq])
      rw [← hsize, hall, Nat.add_zero]

theorem Written.step (h : Written size file0 tr p) (hs : Product.Step size p e p') :
    Written size file0 (tr ++ [e]) p' := by
  cases hs with
  | preDump _ join =>
    have hnone := h.joined join
    exact ⟨fun _ => hnone, fun hne => absurd hnone hne, h.holds.quiet rfl rfl (.inr rfl) rfl⟩
  | fill dumping => exact ⟨h.apart, h.valid, h.holds.quiet rfl rfl (.inl (h.apart dumping)) rfl⟩
  | postDump dumping =>
    refine ⟨fun hd => absurd hd Bool.false_ne_true, fun _ => rfl, ?_⟩
    have hholds := h.holds
    simp only [Holds, h.apart dumping] at hholds ⊢
    obtain ⟨parts, hparts, hrec⟩ := hholds
    refine ⟨_, parts, dumps_concat _ _, ?_, Nat.zero_add _, hrec.mono _⟩
    simp [hparts, slice]
  | notCreated dumping =>
    exact ⟨fun hd => absurd hd Bool.false_ne_true, h.valid, h.holds.quiet rfl rfl (.inr rfl) rfl⟩
  | @write t bytesWritten running more hle fd =>
    have hidle : p.dumping = false := by
      by_contra hd
      cases (h.apart (by simpa using hd)).symm.trans running
    refine ⟨fun hd => by simp [hidle] at hd, fun _ => h.valid (by rw [running]; exact Option.some_ne_none t), ?_⟩
    have hholds := h.holds
    simp only [Holds, running] at hholds ⊢
    obtain ⟨ds, parts, hds, hparts, hsize, hrec⟩ := hholds
    refine ⟨ds, parts, by rw [dumps_quiet rfl, hds], ?_, by omega, hrec.mono _⟩
    rw [hparts, slice_add, Nat.zero_add, List.append_assoc]
  | writeFails running _ => exact ⟨fun _ => rfl, fun hne => absurd rfl hne, h.holds.returns running rfl (.inl rfl)⟩
  | done running all => exact ⟨fun _ => rfl, fun hne => absurd rfl hne, h.holds.returns running rfl (.inr all)⟩
  | stop _ join =>
    have hnone := h.joined join
    exact ⟨fun _ => hnone, fun hne => absurd hnone hne, h.holds.quiet rfl rfl (.inr rfl) rfl⟩

theorem written_init (size : Nat) (file0 : List UInt8) (hPwrbuf : Nat → UInt8) :
    Written size file0 [] ⟨true, false, none, hPwrbuf, file0, false⟩ where
  apart := nofun
  valid hne := absurd rfl hne
  holds := ⟨[], (List.append_nil _).symm, .nil, fun _ => rfl⟩

/-! ### Contexts -/

variable {no : Nat} {sizes : Fin no → Nat} {files : Fin no → List UInt8} {hPwrbuf : Fin no → Nat → UInt8}
  {c : Context no} {ctr : List (Fin no × Event)}

/-- What a product sees of a run. -/
def eventsOf (i : Fin no) (ctr : List (Fin no × Event)) : List Event :=
  ctr.filterMap fun l => if l.1 = i then some l.2 else none

theorem projects (sizes : Fin no → Nat) (i : Fin no) :
    Lts.Run.Projects (Step sizes) (Product.Step (sizes i)) (fun c => c i) fun l =>
      if l.1 = i then some l.2 else none := by
  rintro c ⟨j, e⟩ c' ⟨h⟩
  by_cases hj : j = i
  · subst hj
    exact Or.inl ⟨e, if_pos rfl, by simpa only [Function.update_self] using h⟩
  · exact Or.inr ⟨if_neg hj, Function.update_of_ne (Ne.symm hj) _ _⟩

/-- In every run, whatever numbers of bytes the writes return and whenever the threads run: the file of a product holds
    its dumps in order after what was there before, each as the power buffer was at its second callback. Without a
    failing write a file whose output thread has returned holds exactly its dumps; the thread has returned whenever the
    library has the power buffer. -/
theorem files_hold_dumps (hr : Lts.Run (Step sizes) (init files hPwrbuf) ctr c) (i : Fin no) :
    ((c i).dumping = true → (c i).outputThread = none) ∧
      ∃ parts, (c i).file = files i ++ parts.flatten ∧
        List.Forall₂ (· <+: ·) parts (dumps (eventsOf i ctr)) ∧
        (Event.writeFails ∉ eventsOf i ctr → (c i).outputThread = none → parts = dumps (eventsOf i ctr)) := by
  have hwritten : Written (sizes i) (files i) (eventsOf i ctr) (c i) :=
    (hr.project (projects sizes i)).invariant (I := fun tr p => Written (sizes i) (files i) tr p)
      (written_init ..) fun _ _ _ _ _ h hs => h.step hs
  refine ⟨hwritten.apart, ?_⟩
  have hholds := hwritten.holds
  unfold Holds at hholds
  cases ht : (c i).outputThread with
  | none =>
    rw [ht] at hholds
    obtain ⟨parts, hparts, hrec⟩ := hholds
    exact ⟨parts, hparts, hrec.prefixes, fun hno _ => hrec.whole hno⟩
  | some t =>
    rw [ht] at hholds
    obtain ⟨ds, parts, hds, hparts, hsize, hrec⟩ := hholds
    refine ⟨parts ++ [slice (c i).hPwrbuf 0 t.buf], ?_, ?_, fun _ => nofun⟩
    · rw [hparts, List.flatten_append, List.flatten_singleton, List.append_assoc]
    · rw [hds]
      refine List.rel_append hrec.prefixes (.cons ?_ .nil)
      rw [← hsize, slice_add]
      exact List.prefix_append _ _

/-- Two dumps behind a byte of the file. The first is written in two parts; the second lacks a byte yet. -/
theorem files_hold_dumps_parts : ∃ (ctr : List (Fin 1 × Event)) (c : Context 1),
    dumps (eventsOf 0 ctr) = [[7, 8], [9, 8]] ∧ (c 0).file = [1, 7, 8, 9] ∧
    ((c 0).dumping = true → (c 0).outputThread = none) ∧
      ∃ parts, (c 0).file = [1] ++ parts.flatten ∧ List.Forall₂ (· <+: ·) parts (dumps (eventsOf 0 ctr)) ∧
        (Event.writeFails ∉ eventsOf 0 ctr → (c 0).outputThread = none → parts = dumps (eventsOf 0 ctr)) := by
  let start : Context 1 := init (fun _ => [1]) fun _ _ => 0
  have h : Lts.Run (Step fun _ => 2) start [] start := .start
  have h := h.next (.product (i := 0) (.preDump rfl nofun))
  have h := h.next (.product (i := 0) (.fill (x := 0) (v := 7) rfl))
  have h := h.next (.product (i := 0) (.fill (x := 1) (v := 8) rfl))
  have h := h.next (.product (i := 0) (.postDump rfl))
  have h := h.next (.product (i := 0) (.write rfl (Nat.succ_ne_zero 1) (Nat.le_succ 1) rfl))
  have h := h.next (.product (i := 0) (.write rfl Nat.one_ne_zero (Nat.le_refl 1) rfl))
  have h := h.next (.product (i := 0) (.done rfl rfl))
  have h := h.next (.product (i := 0) (.preDump rfl fun _ => rfl))
  have h := h.next (.product (i := 0) (.fill (x := 0) (v := 9) rfl))
  have h := h.next (.product (i := 0) (.postDump rfl))
  have h := h.next (.product (i := 0) (.write rfl (Nat.succ_ne_zero 1) (Nat.le_succ 1) rfl))
  exact ⟨_, _, rfl, rfl, files_hold_dumps h 0⟩

end VoltRec.Rawspec
