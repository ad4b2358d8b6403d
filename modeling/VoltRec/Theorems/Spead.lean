import VoltRec.MkFeng
import VoltRec.Lib.Radix
import Mathlib.Data.List.Induction

/-! The items of a SPEAD header. An item is a word of 64 bits: the id in the upper 16, the value in the lower 48. A
    packet without an item leaves the field to the packets before it. -/

namespace VoltRec.VoltOuter

variable {p : Nat → UInt8}

/-- The words of the header behind the first, as far as it counts them. -/
def speadItems (p : Nat → UInt8) : List Nat :=
  (List.range (nitems p)).map fun i => be64toh p (offsetSpdhdr + 8 * (i + 1))

/-- The value of the last item with an id. -/
def lastValue (id : Nat) (items : List Nat) : Option Nat :=
  (items.reverse.find? fun item => item / 2 ^ 48 == id).map (· % 2 ^ 48)

theorem lastValue_append (id : Nat) (items items' : List Nat) :
    lastValue id (items ++ items') = (lastValue id items').or (lastValue id items) := by
  rw [lastValue, lastValue, lastValue, List.reverse_append, List.find?_append]
  cases items'.reverse.find? fun item => item / 2 ^ 48 == id <;> rfl

theorem lastValue_singleton (id item : Nat) :
    lastValue id [item] = if item / 2 ^ 48 = id then some (item % 2 ^ 48) else none := by
  rw [lastValue, List.reverse_singleton, List.find?_singleton]
  split <;> simp_all

/-- The info that some items leave behind. -/
def updateInfo (fesi : MkFengSpeadInfo) (items : List Nat) : MkFengSpeadInfo where
  heapOffset := (lastValue 0x8003 items).getD fesi.heapOffset
  payloadSize := (lastValue 0x8004 items).getD fesi.payloadSize
  timestamp := (lastValue 0x9600 items).getD fesi.timestamp
  fengId := (lastValue 0xc101 items).getD fesi.fengId
  fengChan := (lastValue 0xc103 items).getD fesi.fengChan

@[simp] theorem updateInfo_nil (fesi : MkFengSpeadInfo) : updateInfo fesi [] = fesi := rfl

theorem updateInfo_append (fesi : MkFengSpeadInfo) (items items' : List Nat) :
    updateInfo fesi (items ++ items') = updateInfo (updateInfo fesi items) items' := by
  simp only [updateInfo, lastValue_append, Option.getD_or]

theorem speadImmValue_eq (item : Nat) : speadImmValue item = item % 2 ^ 48 := Nat.and_two_pow_sub_one_eq_mod item 48

/-- The first two bytes of a word are its upper 16 bits. -/
theorem be64toh_div (p : Nat → UInt8) (off : Nat) :
    be64toh p off / 2 ^ 48 = 256 * (p off).toNat + (p (off + 1)).toNat := by
  have hb : ∀ x, (p x).toNat < 256 := fun x => (p x).toNat_lt
  have h2 := hb (off + 2)
  have h3 := hb (off + 3)
  have h4 := hb (off + 4)
  have h5 := hb (off + 5)
  have h6 := hb (off + 6)
  have h7 := hb (off + 7)
  simp only [be64toh, List.range_succ, List.range_zero, List.nil_append, List.cons_append, List.foldl_cons,
    List.foldl_nil, Nat.add_zero]
  omega

/-- An id of the header is the id of the item with its bytes exchanged. -/
theorem uint16At_iff (p : Nat → UInt8) (off lo hi : Nat) (hlo : lo < 256) (hhi : hi < 256) :
    uint16At p off = lo + 256 * hi ↔ be64toh p off / 2 ^ 48 = 256 * lo + hi := by
  have h0 := (p off).toNat_lt
  have h1 := (p (off + 1)).toNat_lt
  rw [be64toh_div, uint16At]
  omega

theorem parseItem_eq (p : Nat → UInt8) (fesi : MkFengSpeadInfo) (off : Nat) :
    parseItem p fesi off = updateInfo fesi [be64toh p off] := by
  have hoffset : uint16At p off = speadIdImmHeapOffset ↔ be64toh p off / 2 ^ 48 = 0x8003 :=
    uint16At_iff p off 0x80 0x03 (by decide) (by decide)
  have hsize : uint16At p off = speadIdImmPayloadSize ↔ be64toh p off / 2 ^ 48 = 0x8004 :=
    uint16At_iff p off 0x80 0x04 (by decide) (by decide)
  have htime : uint16At p off = speadIdImmTimestamp ↔ be64toh p off / 2 ^ 48 = 0x9600 :=
    uint16At_iff p off 0x96 0x00 (by decide) (by decide)
  have hfeng : uint16At p off = speadIdImmFengId ↔ be64toh p off / 2 ^ 48 = 0xc101 :=
    uint16At_iff p off 0xc1 0x01 (by decide) (by decide)
  have hchan : uint16At p off = speadIdImmFengChan ↔ be64toh p off / 2 ^ 48 = 0xc103 :=
    uint16At_iff p off 0xc1 0x03 (by decide) (by decide)
  simp only [parseItem, updateInfo, lastValue_singleton, speadImmValue_eq, hoffset, hsize, htime, hfeng, hchan]
  generalize be64toh p off / 2 ^ 48 = id
  -- The five ids exclude each other.
  by_cases h3 : id = 0x8003
  · subst h3; rfl
  by_cases h4 : id = 0x8004
  · subst h4; rfl
  by_cases h6 : id = 0x9600
  · subst h6; rfl
  by_cases h1 : id = 0xc101
  · subst h1; rfl
  by_cases h2 : id = 0xc103
  · subst h2; rfl
  simp only [if_neg h3, if_neg h4, if_neg h6, if_neg h1, if_neg h2, Option.getD_none]

/-- Parsing a packet updates the info with its items. -/
theorem mkParse_eq (p : Nat → UInt8) (fesi : MkFengSpeadInfo) :
    mkParseMkfengIbvSpeadPacket p fesi = updateInfo fesi (speadItems p) := by
  rw [mkParseMkfengIbvSpeadPacket, speadItems]
  induction nitems p with
  | zero => rfl
  | succ n ih =>
    rw [List.range_succ, List.foldl_append, ih, List.map_append, updateInfo_append]
    exact parseItem_eq ..

/-- After any packets each field holds the value of the last item with its id among those of all the packets. -/
theorem parsed_lastItems (ps : List (Nat → UInt8)) (fesi : MkFengSpeadInfo) :
    ps.foldl (fun fesi p => mkParseMkfengIbvSpeadPacket p fesi) fesi = updateInfo fesi (ps.flatMap speadItems) := by
  induction ps generalizing fesi with
  | nil => rfl
  | cons p ps ih => rw [List.foldl_cons, ih, List.flatMap_cons, updateInfo_append, mkParse_eq]

end VoltRec.VoltOuter
