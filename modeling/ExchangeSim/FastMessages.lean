import ExchangeSim.FastTypes

/-!
The six messages of the market data feed, `fast_encoder.h` and `fast_decoder.h`.
-/

namespace ExchangeSim

open List

/-! The messages. `ι w` is the type of the unsigned fields of `w` bits: `BitVec w` in the structs
of the source, and 64 bits for any `w` on the wire. -/

structure FastQuote where
  bidPrice : Int64
  bidQty : Int64
  askPrice : Int64
  askQty : Int64
  timestamp : Int64

structure FastTrade (ι : Nat → Type) where
  price : Int64
  quantity : Int64
  aggressorSide : ι 8
  timestamp : Int64

structure FastStatus (ι : Nat → Type) where
  sessionState : ι 8
  timestamp : Int64

structure FastSnapshot (ι : Nat → Type) where
  bidPrice : Int64
  bidQty : Int64
  askPrice : Int64
  askQty : Int64
  bidCount : ι 32
  askCount : ι 32
  timestamp : Int64

structure FastInstrumentDef (ι : Nat → Type) where
  instrumentId : ι 32
  symbol : List.Vector UInt8 8
  description : List.Vector UInt8 32
  productGroup : ι 8
  tickSize : Int64
  lotSize : Int64
  maxOrderSize : Int64
  totalInstruments : ι 32
  timestamp : Int64

structure FastSnapshotLevel (ι : Nat → Type) where
  price : Int64
  quantity : Int64
  orderCount : ι 32

/-- `kSnapshotBookDepth` slots for each side, of which the first ones are in use. -/
structure FastFullSnapshot (ι : Nat → Type) where
  instrumentId : ι 32
  seqNum : ι 32
  numBidLevels : ι 8
  numAskLevels : ι 8
  bids : Fin 5 → FastSnapshotLevel ι
  asks : Fin 5 → FastSnapshotLevel ι
  timestamp : Int64

inductive FastMessage (ι : Nat → Type)
  | quote (msg : FastQuote)
  | trade (msg : FastTrade ι)
  | status (msg : FastStatus ι)
  | snapshot (msg : FastSnapshot ι)
  | instrumentDef (msg : FastInstrumentDef ι)
  | fullSnapshot (msg : FastFullSnapshot ι)

abbrev Wire (_ : Nat) : Type := BitVec 64

section fields

variable {ι κ : Nat → Type} (f : ∀ w, ι w → κ w) (P : ∀ w, ι w → Prop)

def FastSnapshotLevel.map (l : FastSnapshotLevel ι) : FastSnapshotLevel κ :=
  ⟨l.price, l.quantity, f 32 l.orderCount⟩

def FastMessage.map : FastMessage ι → FastMessage κ
  | .quote m => .quote m
  | .trade m => .trade ⟨m.price, m.quantity, f 8 m.aggressorSide, m.timestamp⟩
  | .status m => .status ⟨f 8 m.sessionState, m.timestamp⟩
  | .snapshot m => .snapshot ⟨m.bidPrice, m.bidQty, m.askPrice, m.askQty, f 32 m.bidCount,
      f 32 m.askCount, m.timestamp⟩
  | .instrumentDef m => .instrumentDef ⟨f 32 m.instrumentId, m.symbol, m.description,
      f 8 m.productGroup, m.tickSize, m.lotSize, m.maxOrderSize, f 32 m.totalInstruments,
      m.timestamp⟩
  | .fullSnapshot m => .fullSnapshot ⟨f 32 m.instrumentId, f 32 m.seqNum, f 8 m.numBidLevels,
      f 8 m.numAskLevels, fun i => (m.bids i).map f, fun i => (m.asks i).map f, m.timestamp⟩

def FastMessage.All : FastMessage ι → Prop
  | .quote _ => True
  | .trade m => P 8 m.aggressorSide
  | .status m => P 8 m.sessionState
  | .snapshot m => P 32 m.bidCount ∧ P 32 m.askCount
  | .instrumentDef m => P 32 m.instrumentId ∧ P 8 m.productGroup ∧ P 32 m.totalInstruments
  | .fullSnapshot m => P 32 m.instrumentId ∧ P 32 m.seqNum ∧ P 8 m.numBidLevels ∧
      P 8 m.numAskLevels ∧ (∀ i, P 32 (m.bids i).orderCount) ∧ ∀ i, P 32 (m.asks i).orderCount

end fields

/-- `static_cast` to the type of the field. -/
def narrow (w : Nat) (x : Wire w) : BitVec w :=
  x.setWidth w

def widen (w : Nat) (x : BitVec w) : Wire w :=
  x.setWidth 64

/-! Encoders. -/

structure PresenceMap where
  first : UInt8 := 0
  second : UInt8 := 0

def PresenceMap.setBit (p : PresenceMap) (pos : Nat) : PresenceMap :=
  let bit : UInt8 := 1 <<< UInt8.ofNat (6 - pos % 7)
  match pos / 7 with
  | 0 => { p with first := p.first ||| bit }
  | 1 => { p with second := p.second ||| bit }
  | _ => p

def encodePmap (p : PresenceMap) : Nat → Option Bytes :=
  put (if p.second = 0 then [p.first ||| 0x80] else [p.first &&& 0x7F, p.second ||| 0x80])

def encodeBytes {n : Nat} (src : List.Vector UInt8 n) : Nat → Option Bytes :=
  put src.toList

/-- The presence map with the bit of the template id, the template id and the fields. -/
def encodeTemplate (tid : BitVec 64) (fields : List (Nat → Option Bytes)) : Nat → Option Bytes :=
  writeAll (encodePmap (PresenceMap.setBit {} 0) :: encodeU64 tid :: fields)

def encodeQuote (msg : FastQuote) : Nat → Option Bytes :=
  encodeTemplate 1 [encodeI64 msg.bidPrice, encodeI64 msg.bidQty, encodeI64 msg.askPrice,
    encodeI64 msg.askQty, encodeI64 msg.timestamp]

def encodeTrade (msg : FastTrade BitVec) : Nat → Option Bytes :=
  encodeTemplate 2 [encodeI64 msg.price, encodeI64 msg.quantity,
    encodeU64 (widen 8 msg.aggressorSide), encodeI64 msg.timestamp]

def encodeStatus (msg : FastStatus BitVec) : Nat → Option Bytes :=
  encodeTemplate 3 [encodeU64 (widen 8 msg.sessionState), encodeI64 msg.timestamp]

def encodeSnapshot (msg : FastSnapshot BitVec) : Nat → Option Bytes :=
  encodeTemplate 4 [encodeI64 msg.bidPrice, encodeI64 msg.bidQty, encodeI64 msg.askPrice,
    encodeI64 msg.askQty, encodeU64 (widen 32 msg.bidCount), encodeU64 (widen 32 msg.askCount),
    encodeI64 msg.timestamp]

def encodeInstrumentDef (msg : FastInstrumentDef BitVec) : Nat → Option Bytes :=
  encodeTemplate 5 [encodeU64 (widen 32 msg.instrumentId), encodeBytes msg.symbol,
    encodeBytes msg.description, encodeU64 (widen 8 msg.productGroup), encodeI64 msg.tickSize,
    encodeI64 msg.lotSize, encodeI64 msg.maxOrderSize,
    encodeU64 (widen 32 msg.totalInstruments), encodeI64 msg.timestamp]

def encodeLevel (l : FastSnapshotLevel BitVec) : List (Nat → Option Bytes) :=
  [encodeI64 l.price, encodeI64 l.quantity, encodeU64 (widen 32 l.orderCount)]

def usedSlots {ι : Nat → Type} (n : BitVec 8) (slots : Fin 5 → FastSnapshotLevel ι) :
    List (FastSnapshotLevel ι) :=
  (ofFn slots).take n.toNat

/-- There is no result for more than five levels, where the loops leave their arrays. -/
def encodeFullSnapshot (msg : FastFullSnapshot BitVec) (room : Nat) : Option Bytes :=
  if msg.numBidLevels.toNat ≤ 5 ∧ msg.numAskLevels.toNat ≤ 5 then
    encodeTemplate 6 (encodeU64 (widen 32 msg.instrumentId) :: encodeU64 (widen 32 msg.seqNum) ::
      encodeU64 (widen 8 msg.numBidLevels) :: encodeU64 (widen 8 msg.numAskLevels) ::
      ((usedSlots msg.numBidLevels msg.bids).flatMap encodeLevel ++
      ((usedSlots msg.numAskLevels msg.asks).flatMap encodeLevel ++
      [encodeI64 msg.timestamp]))) room
  else none

def FastMessage.encode : FastMessage BitVec → Nat → Option Bytes
  | .quote m => encodeQuote m
  | .trade m => encodeTrade m
  | .status m => encodeStatus m
  | .snapshot m => encodeSnapshot m
  | .instrumentDef m => encodeInstrumentDef m
  | .fullSnapshot m => encodeFullSnapshot m

/-! Decoders. Each returns the message as it is on the wire, before the conversions. -/

def decodePmap : Reader Bytes := do
  readStop (fun bytes b => bytes ++ [b &&& 0x7F]) 1 [] (← .byte)

def decodeBytes : (n : Nat) → Reader (List.Vector UInt8 n)
  | 0 => pure .nil
  | n + 1 => do return (← .byte) ::ᵥ (← decodeBytes n)

def decodeQuoteFields : Reader FastQuote := do
  return ⟨← decodeI64, ← decodeI64, ← decodeI64, ← decodeI64, ← decodeI64⟩

def decodeTradeFields : Reader (FastTrade Wire) := do
  return ⟨← decodeI64, ← decodeI64, ← decodeU64, ← decodeI64⟩

def decodeStatusFields : Reader (FastStatus Wire) := do
  return ⟨← decodeU64, ← decodeI64⟩

def decodeSnapshotFields : Reader (FastSnapshot Wire) := do
  return ⟨← decodeI64, ← decodeI64, ← decodeI64, ← decodeI64, ← decodeU64, ← decodeU64, ← decodeI64⟩

def decodeInstrumentDefFields : Reader (FastInstrumentDef Wire) := do
  return ⟨← decodeU64, ← decodeBytes 8, ← decodeBytes 32, ← decodeU64, ← decodeI64, ← decodeI64,
    ← decodeI64, ← decodeU64, ← decodeI64⟩

def decodeLevel : Reader (FastSnapshotLevel Wire) := do
  return ⟨← decodeI64, ← decodeI64, ← decodeU64⟩

/-- The first slots hold the levels, and the others are as they were at the start. -/
def slotsOf {ι : Nat → Type} (zero : ι 32) (levels : List (FastSnapshotLevel ι)) (i : Fin 5) :
    FastSnapshotLevel ι :=
  levels.getD i ⟨0, 0, zero⟩

def decodeLevels (n : Wire 8) : Reader (Fin 5 → FastSnapshotLevel Wire) :=
  slotsOf 0 <$> decodeLevel.times (min (narrow 8 n).toNat 5)

def decodeFullSnapshotFields : Reader (FastFullSnapshot Wire) := do
  let instrumentId ← decodeU64
  let seqNum ← decodeU64
  let nb ← decodeU64
  let na ← decodeU64
  return ⟨instrumentId, seqNum, nb, na, ← decodeLevels nb, ← decodeLevels na, ← decodeI64⟩

/-- The template id and the message, with the integers that are on the wire. -/
def wireMessage : Reader (BitVec 64 × FastMessage Wire) := do
  let _ ← decodePmap
  let rawTid ← decodeU64
  match (rawTid.setWidth 32).toNat with
  | 1 => (rawTid, .quote ·) <$> decodeQuoteFields
  | 2 => (rawTid, .trade ·) <$> decodeTradeFields
  | 3 => (rawTid, .status ·) <$> decodeStatusFields
  | 4 => (rawTid, .snapshot ·) <$> decodeSnapshotFields
  | 5 => (rawTid, .instrumentDef ·) <$> decodeInstrumentDefFields
  | 6 => (rawTid, .fullSnapshot ·) <$> decodeFullSnapshotFields
  | _ => .fail

/-- `decode_message`, which calls the visitor with the message. -/
def decodeMessage : Reader (FastMessage BitVec) :=
  (fun p => p.2.map narrow) <$> wireMessage

/-- What the visitor is called with, and the offset at the end. -/
def decodeMessages (buf : Bytes) : List (FastMessage BitVec) × Nat :=
  decodeMessage.readAll buf.length buf

/-! Round trip. -/

theorem reads_decodePmap : decodePmap.Reads [0xC0] [0xC0 &&& 0x7F] :=
  (Reader.reads_byte 0xC0).bind
    (reads_readStop _ (show stopBit 0xC0 = true by decide) (Nat.zero_le 1))

theorem reads_decodeI64 (value : Int64) : decodeI64.Reads (i64Bytes value) value := by
  obtain ⟨b, tail, hb, hread⟩ := reads_decodeI64From value
  rw [hb]
  exact (Reader.reads_byte b).bind hread

theorem reads_decodeBytes : ∀ {n : Nat} (v : List.Vector UInt8 n), (decodeBytes n).Reads v.toList v
  | 0, ⟨[], _⟩ => Reader.reads_pure _
  | n + 1, ⟨b :: bs, h⟩ => by
    have hrest := (reads_decodeBytes ⟨bs, Nat.succ.inj h⟩).bind
      (f := fun vs => pure (b ::ᵥ vs)) (Reader.reads_pure _)
    rw [append_nil] at hrest
    exact (Reader.reads_byte b).bind hrest

def levelBytes (l : FastSnapshotLevel Wire) : List Bytes :=
  [i64Bytes l.price, i64Bytes l.quantity, u64Bytes l.orderCount]

def FastMessage.parts : FastMessage Wire → BitVec 64 × List Bytes
  | .quote m => (1, [i64Bytes m.bidPrice, i64Bytes m.bidQty, i64Bytes m.askPrice,
      i64Bytes m.askQty, i64Bytes m.timestamp])
  | .trade m => (2, [i64Bytes m.price, i64Bytes m.quantity, u64Bytes m.aggressorSide,
      i64Bytes m.timestamp])
  | .status m => (3, [u64Bytes m.sessionState, i64Bytes m.timestamp])
  | .snapshot m => (4, [i64Bytes m.bidPrice, i64Bytes m.bidQty, i64Bytes m.askPrice,
      i64Bytes m.askQty, u64Bytes m.bidCount, u64Bytes m.askCount, i64Bytes m.timestamp])
  | .instrumentDef m => (5, [u64Bytes m.instrumentId, m.symbol.toList, m.description.toList,
      u64Bytes m.productGroup, i64Bytes m.tickSize, i64Bytes m.lotSize, i64Bytes m.maxOrderSize,
      u64Bytes m.totalInstruments, i64Bytes m.timestamp])
  | .fullSnapshot m => (6, u64Bytes m.instrumentId :: u64Bytes m.seqNum ::
      u64Bytes m.numBidLevels :: u64Bytes m.numAskLevels ::
      ((usedSlots (narrow 8 m.numBidLevels) m.bids).flatMap levelBytes ++
      ((usedSlots (narrow 8 m.numAskLevels) m.asks).flatMap levelBytes ++ [i64Bytes m.timestamp])))

def FastMessage.bytes (m : FastMessage Wire) : Bytes :=
  ([[0xC0], u64Bytes m.parts.1] ++ m.parts.2).flatten

def clearSlots {ι : Nat → Type} (zero : ι 32) (n : BitVec 8) (slots : Fin 5 → FastSnapshotLevel ι)
    (i : Fin 5) : FastSnapshotLevel ι :=
  if i < n.toNat then slots i else ⟨0, 0, zero⟩

theorem slotsOf_usedSlots {ι : Nat → Type} (zero : ι 32) (n : BitVec 8)
    (slots : Fin 5 → FastSnapshotLevel ι) :
    slotsOf zero (usedSlots n slots) = clearSlots zero n slots := by
  funext i
  rw [slotsOf, usedSlots, getD_eq_getElem?_getD, getElem?_take, clearSlots]
  split
  · rw [getElem?_eq_getElem (by simp), List.getElem_ofFn]
    rfl
  · rfl

theorem reads_decodeLevels (n : Wire 8) (slots : Fin 5 → FastSnapshotLevel Wire) :
    (decodeLevels n).Reads ((usedSlots (narrow 8 n) slots).flatMap levelBytes).flatten
      (clearSlots 0 (narrow 8 n) slots) := by
  have hlevel (l : FastSnapshotLevel Wire) : decodeLevel.Reads (levelBytes l).flatten l :=
    (reads_decodeI64 l.price).bind ((reads_decodeI64 l.quantity).bind
      ((reads_decodeU64 l.orderCount).bind (Reader.reads_pure l)))
  have hread := (Reader.reads_times (l := usedSlots (narrow 8 n) slots)
    fun l _ => hlevel l).map (slotsOf 0)
  have hlength : (usedSlots (narrow 8 n) slots).length = min (narrow 8 n).toNat 5 := by
    simp [usedSlots]
  have hbytes : ((usedSlots (narrow 8 n) slots).flatMap levelBytes).flatten =
      (usedSlots (narrow 8 n) slots).flatMap fun l => (levelBytes l).flatten := by
    simp only [flatten_eq_flatMap, flatMap_assoc]
  rw [slotsOf_usedSlots, hlength] at hread
  rw [hbytes]
  exact hread

/-- The message with its unused slots as in a new message. -/
def FastMessage.cleared {ι : Nat → Type} (zero : ι 32) (count : ι 8 → BitVec 8) :
    FastMessage ι → FastMessage ι
  | .fullSnapshot m => .fullSnapshot { m with
      bids := clearSlots zero (count m.numBidLevels) m.bids
      asks := clearSlots zero (count m.numAskLevels) m.asks }
  | m => m

theorem reads_wireMessage (m : FastMessage Wire) :
    wireMessage.Reads m.bytes (m.parts.1, m.cleared 0 (narrow 8)) := by
  refine reads_decodePmap.bind ((reads_decodeU64 m.parts.1).bind ?_)
  cases m with
  | quote m =>
    have hread : decodeQuoteFields.Reads (FastMessage.quote m).parts.2.flatten m :=
      (reads_decodeI64 m.bidPrice).bind ((reads_decodeI64 m.bidQty).bind
        ((reads_decodeI64 m.askPrice).bind ((reads_decodeI64 m.askQty).bind
        ((reads_decodeI64 m.timestamp).bind (Reader.reads_pure m)))))
    exact hread.map _
  | trade m =>
    have hread : decodeTradeFields.Reads (FastMessage.trade m).parts.2.flatten m :=
      (reads_decodeI64 m.price).bind ((reads_decodeI64 m.quantity).bind
        ((reads_decodeU64 m.aggressorSide).bind
        ((reads_decodeI64 m.timestamp).bind (Reader.reads_pure m))))
    exact hread.map _
  | status m =>
    have hread : decodeStatusFields.Reads (FastMessage.status m).parts.2.flatten m :=
      (reads_decodeU64 m.sessionState).bind
        ((reads_decodeI64 m.timestamp).bind (Reader.reads_pure m))
    exact hread.map _
  | snapshot m =>
    have hread : decodeSnapshotFields.Reads (FastMessage.snapshot m).parts.2.flatten m :=
      (reads_decodeI64 m.bidPrice).bind ((reads_decodeI64 m.bidQty).bind
        ((reads_decodeI64 m.askPrice).bind ((reads_decodeI64 m.askQty).bind
        ((reads_decodeU64 m.bidCount).bind ((reads_decodeU64 m.askCount).bind
        ((reads_decodeI64 m.timestamp).bind (Reader.reads_pure m)))))))
    exact hread.map _
  | instrumentDef m =>
    have hread : decodeInstrumentDefFields.Reads (FastMessage.instrumentDef m).parts.2.flatten m :=
      (reads_decodeU64 m.instrumentId).bind ((reads_decodeBytes m.symbol).bind
        ((reads_decodeBytes m.description).bind ((reads_decodeU64 m.productGroup).bind
        ((reads_decodeI64 m.tickSize).bind ((reads_decodeI64 m.lotSize).bind
        ((reads_decodeI64 m.maxOrderSize).bind ((reads_decodeU64 m.totalInstruments).bind
        ((reads_decodeI64 m.timestamp).bind (Reader.reads_pure m)))))))))
    exact hread.map _
  | fullSnapshot m =>
    have hread : decodeFullSnapshotFields.Reads (FastMessage.fullSnapshot m).parts.2.flatten
        { m with
          bids := clearSlots 0 (narrow 8 m.numBidLevels) m.bids
          asks := clearSlots 0 (narrow 8 m.numAskLevels) m.asks } := by
      simp only [FastMessage.parts, flatten_cons, flatten_append]
      exact (reads_decodeU64 m.instrumentId).bind ((reads_decodeU64 m.seqNum).bind
        ((reads_decodeU64 m.numBidLevels).bind ((reads_decodeU64 m.numAskLevels).bind
        ((reads_decodeLevels m.numBidLevels m.bids).bind
        ((reads_decodeLevels m.numAskLevels m.asks).bind
        ((reads_decodeI64 m.timestamp).bind (Reader.reads_pure _)))))))
    exact hread.map _

def FastMessage.levelCounts {ι : Nat → Type} : FastMessage ι → List (ι 8)
  | .fullSnapshot m => [m.numBidLevels, m.numAskLevels]
  | _ => []

def FastMessage.InDepth (m : FastMessage BitVec) : Prop :=
  ∀ n ∈ m.levelCounts, n.toNat ≤ 5

theorem narrow_widen {w : Nat} (hw : w ≤ 64) (x : BitVec w) : narrow w (widen w x) = x := by
  simp [narrow, widen, BitVec.setWidth_setWidth_of_le, hw]

theorem encodeTemplate_put (tid : BitVec 64) (parts : List Bytes) (room : Nat) :
    encodeTemplate tid (parts.map put) room = put ([[0xC0], u64Bytes tid] ++ parts).flatten room :=
  writeAll_put ([[0xC0], u64Bytes tid] ++ parts) room

theorem usedSlots_map (n : BitVec 8) (slots : Fin 5 → FastSnapshotLevel BitVec) :
    ((usedSlots n fun i => (slots i).map widen).flatMap levelBytes).map put =
      (usedSlots n slots).flatMap encodeLevel := by
  have hmap : (usedSlots n fun i => (slots i).map widen) =
      (usedSlots n slots).map fun l => l.map widen := by
    rw [usedSlots, usedSlots, map_take, map_ofFn]
    rfl
  rw [hmap, map_flatMap, flatMap_map]
  rfl

theorem encode_eq {m : FastMessage BitVec} (h : m.InDepth) (room : Nat) :
    m.encode room = put (m.map widen).bytes room := by
  cases m with
  | fullSnapshot m =>
    have hparts := encodeTemplate_put 6 ((FastMessage.fullSnapshot m).map widen).parts.2 room
    simp only [FastMessage.map, FastMessage.parts, narrow_widen, Nat.reduceLeDiff, map_cons,
      map_append, usedSlots_map] at hparts
    simp only [FastMessage.bytes, FastMessage.map, FastMessage.parts, narrow_widen,
      Nat.reduceLeDiff, ← hparts]
    exact if_pos (by simpa [FastMessage.InDepth, FastMessage.levelCounts] using h)
  | quote m => exact encodeTemplate_put 1 ((FastMessage.quote m).map widen).parts.2 room
  | trade m => exact encodeTemplate_put 2 ((FastMessage.trade m).map widen).parts.2 room
  | status m => exact encodeTemplate_put 3 ((FastMessage.status m).map widen).parts.2 room
  | snapshot m => exact encodeTemplate_put 4 ((FastMessage.snapshot m).map widen).parts.2 room
  | instrumentDef m =>
    exact encodeTemplate_put 5 ((FastMessage.instrumentDef m).map widen).parts.2 room

theorem length_flatten_le {k : Nat} {parts : List Bytes} (h : ∀ p ∈ parts, p.length ≤ k) :
    parts.flatten.length ≤ parts.length * k := by
  simpa using sum_le_card_nsmul (parts.map length) k (by simpa using h)

theorem length_i64Bytes (value : Int64) : (i64Bytes value).length ≤ 10 :=
  length_stopBitBytes ..

theorem length_u64Bytes (value : BitVec 64) : (u64Bytes value).length ≤ 10 :=
  length_stopBitBytes ..

theorem levelBytes_small (n : BitVec 8) (slots : Fin 5 → FastSnapshotLevel Wire) :
    ((usedSlots n slots).flatMap levelBytes).length ≤ 15 ∧
      ∀ p ∈ (usedSlots n slots).flatMap levelBytes, p.length ≤ 10 := by
  have hslots : (usedSlots n slots).length ≤ 5 := by simp [usedSlots]
  constructor
  · simp only [length_flatMap, levelBytes, length_cons, length_nil, map_const', sum_replicate,
      smul_eq_mul]
    omega
  · intro p hp
    obtain ⟨l, -, hp⟩ := mem_flatMap.mp hp
    simp only [levelBytes, mem_cons, not_mem_nil, or_false] at hp
    rcases hp with rfl | rfl | rfl
    · exact length_i64Bytes _
    · exact length_i64Bytes _
    · exact length_u64Bytes _

theorem length_bytes_le (m : FastMessage Wire) : m.bytes.length ≤ 512 := by
  have hi (value : Int64) := (length_i64Bytes value).trans (show 10 ≤ 32 by decide)
  have hu (value : BitVec 64) := (length_u64Bytes value).trans (show 10 ≤ 32 by decide)
  cases m with
  | fullSnapshot m =>
    obtain ⟨hbids, hbids'⟩ := levelBytes_small (narrow 8 m.numBidLevels) m.bids
    obtain ⟨hasks, hasks'⟩ := levelBytes_small (narrow 8 m.numAskLevels) m.asks
    refine (length_flatten_le (k := 10) ?_).trans ?_
    · simp only [FastMessage.parts, cons_append, nil_append, forall_mem_cons, forall_mem_append]
      exact ⟨by decide, length_u64Bytes _, length_u64Bytes _, length_u64Bytes _, length_u64Bytes _,
        length_u64Bytes _, hbids', hasks', length_i64Bytes _, by simp⟩
    · simp only [FastMessage.parts, cons_append, nil_append, length_cons, length_append, length_nil]
      omega
  | _ =>
    refine (length_flatten_le (k := 32) ?_).trans ?_
    · simp [FastMessage.parts, hi, hu]
    · simp [FastMessage.parts]

/-- The bytes that `encode_*` writes into a buffer of `kMaxFastEncodedSize` bytes. -/
def FastMessage.sent (m : FastMessage BitVec) : Bytes :=
  (m.encode 512).getD []

theorem encode_sent {m : FastMessage BitVec} (h : m.InDepth) :
    m.sent = (m.map widen).bytes ∧ m.encode 512 = some m.sent := by
  have hput : m.encode 512 = some (m.map widen).bytes :=
    (encode_eq h 512).trans (if_pos (length_bytes_le _))
  simp [FastMessage.sent, hput]

theorem reads_decodeMessage {m : FastMessage BitVec} (h : m.InDepth) :
    decodeMessage.Reads m.sent (m.cleared 0 id) := by
  have hread := (reads_wireMessage (m.map widen)).map fun p => p.2.map narrow
  have hmessage : ((m.map widen).cleared 0 (narrow 8)).map narrow = m.cleared 0 id := by
    cases m with
    | fullSnapshot m =>
      have hslots (n : BitVec 8) (slots : Fin 5 → FastSnapshotLevel BitVec) :
          (fun i => (clearSlots 0 n (fun i => (slots i).map widen) i).map narrow) =
            clearSlots 0 n slots := by
        funext i
        unfold clearSlots
        split
        · simp [FastSnapshotLevel.map, narrow_widen]
        · rfl
      simp only [FastMessage.map, FastMessage.cleared, narrow_widen, Nat.reduceLeDiff, hslots, id]
    | _ => simp [FastMessage.map, FastMessage.cleared, narrow_widen]
  rw [(encode_sent h).1, ← hmessage]
  exact hread

theorem sent_ne_nil {m : FastMessage BitVec} (h : m.InDepth) : m.sent ≠ [] := by
  rw [(encode_sent h).1]
  exact cons_ne_nil 0xC0 _

theorem decodeMessages_stream {m : List (FastMessage BitVec)} (h : ∀ x ∈ m, x.InDepth)
    {t : Bytes} (htail : decodeMessage.read t = none) :
    decodeMessages (m.flatMap (·.sent) ++ t) =
      (m.map (·.cleared 0 id), (m.flatMap (·.sent)).length) :=
  Reader.readAll_stream htail (fun m hm => ⟨reads_decodeMessage (h m hm), sent_ne_nil (h m hm)⟩) le_rfl

/-- A stream is delivered message by message; of a stream that is cut, the messages before the
cut are delivered. -/
theorem decodeMessages_sent (msgs : List (FastMessage BitVec)) (h : ∀ m ∈ msgs, m.InDepth) :
    (∀ m ∈ msgs, m.encode 512 = some m.sent) ∧
    decodeMessages (msgs.flatMap (·.sent)) =
      (msgs.map (·.cleared 0 id), (msgs.flatMap (·.sent)).length) ∧
    ∀ before m after, msgs = before ++ m :: after → ∀ cut,
      (before.flatMap (·.sent)).length ≤ cut → cut < ((before ++ [m]).flatMap (·.sent)).length →
      decodeMessages ((msgs.flatMap (·.sent)).take cut) =
        (before.map (·.cleared 0 id), (before.flatMap (·.sent)).length) := by
  refine ⟨fun m hm => (encode_sent (h m hm)).2, ?_, ?_⟩
  · simpa using decodeMessages_stream (t := []) h rfl
  · rintro before m after rfl cut hlow hhigh
    simp only [flatMap_append, flatMap_cons, flatMap_nil, append_nil, length_append] at hhigh ⊢
    rw [take_append, take_of_length_le hlow, take_append_of_le_length (by omega)]
    exact decodeMessages_stream (fun m hm => h m (by simp [hm]))
      ((reads_decodeMessage (h m (by simp))).cut (by omega))

def staleSnapshot : FastMessage BitVec :=
  .fullSnapshot ⟨1, 1, 0, 0, fun _ => ⟨7, 7, 7⟩, fun _ => ⟨0, 0, 0⟩, 0⟩

def bookSnapshot : FastMessage BitVec :=
  .fullSnapshot ⟨1, 9, 2, 1, ![⟨100, 5, 1⟩, ⟨99, 7, 2⟩, ⟨0, 0, 0⟩, ⟨0, 0, 0⟩, ⟨0, 0, 0⟩],
    ![⟨101, 4, 1⟩, ⟨0, 0, 0⟩, ⟨0, 0, 0⟩, ⟨0, 0, 0⟩, ⟨0, 0, 0⟩], 3⟩

theorem bookSnapshot_cleared : bookSnapshot.cleared 0 id = bookSnapshot := by
  simp only [bookSnapshot, FastMessage.cleared, FastMessage.fullSnapshot.injEq]
  congr <;> funext i <;> fin_cases i <;> rfl

theorem decodeMessages_sent_status :
    let msgs : List (FastMessage BitVec) := [bookSnapshot, .status ⟨1, 5⟩]
    decodeMessages (msgs.flatMap (·.sent)) = (msgs, 23) ∧
      decodeMessages ((msgs.flatMap (·.sent)).take 22) = ([bookSnapshot], 19) := by
  have hdepth : ∀ m ∈ [bookSnapshot, .status ⟨1, 5⟩], m.InDepth := by
    simp [bookSnapshot, FastMessage.InDepth, FastMessage.levelCounts]
  have h := decodeMessages_sent [bookSnapshot, .status ⟨1, 5⟩] hdepth
  have hcut := h.2.2 [bookSnapshot] (.status ⟨1, 5⟩) [] rfl 22 (by decide) (by decide)
  have hall := h.2.1
  simp only [map_cons, map_nil, bookSnapshot_cleared] at hall hcut
  exact ⟨hall, hcut⟩

/-- The slots that are not in use are not sent. -/
theorem staleSnapshot_cleared : staleSnapshot.InDepth ∧
    (decodeMessages staleSnapshot.sent).1 ≠ [staleSnapshot] := by
  have hdepth : staleSnapshot.InDepth := by
    simp [staleSnapshot, FastMessage.InDepth, FastMessage.levelCounts]
  have h := decodeMessages_stream (m := [staleSnapshot]) (t := []) (by simpa using hdepth) rfl
  simp only [flatMap_cons, flatMap_nil, append_nil] at h
  refine ⟨hdepth, fun hsame => ?_⟩
  rw [h] at hsame
  have hprice := congrArg (map fun
    | .fullSnapshot m => (m.bids 0).price
    | _ => 0) hsame
  exact absurd hprice (by decide)

/-! What is accepted. -/

theorem map_narrow_widen_iff (m : FastMessage Wire) : (m.map narrow).map widen = m ↔
    m.All fun w x => x.toNat < 2 ^ w := by
  have hfield (w : Nat) (x : Wire w) : widen w (narrow w x) = x ↔ x.toNat < 2 ^ w := by
    rw [← BitVec.toNat_inj, widen, narrow, BitVec.toNat_setWidth, BitVec.toNat_setWidth,
      Nat.mod_eq_of_lt ((Nat.mod_le _ _).trans_lt x.isLt), Nat.mod_eq_iff_lt (by positivity)]
  have hlevel (l : FastSnapshotLevel Wire) :
      (l.map narrow).map widen = l ↔ l.orderCount.toNat < 2 ^ 32 := by
    cases l
    simp [FastSnapshotLevel.map, hfield]
  cases m with
  | _ m =>
    cases m
    simp [FastMessage.map, FastMessage.All, hfield, hlevel, funext_iff]

theorem wireMessage_tid {buf rest : Bytes} {tid : BitVec 64} {w : FastMessage Wire}
    (h : wireMessage.read buf = some ((tid, w), rest)) :
    1 ≤ (tid.setWidth 32).toNat ∧ (tid.setWidth 32).toNat ≤ 6 := by
  obtain ⟨⟨_, _⟩, -, h⟩ := Option.bind_eq_some_iff.mp h
  obtain ⟨⟨raw, _⟩, -, h⟩ := Option.bind_eq_some_iff.mp h
  dsimp only at h
  split at h
  case h_7 => simp [Reader.fail] at h
  all_goals
    obtain ⟨_, -, he⟩ := Option.bind_eq_some_iff.mp h
    cases he
    omega

theorem inDepth_narrow {w : FastMessage Wire} (h : w.All fun w x => x.toNat < 2 ^ w) :
    (w.map narrow).InDepth ↔ ∀ n ∈ w.levelCounts, n.toNat ≤ 5 := by
  cases w with
  | fullSnapshot m =>
    obtain ⟨-, -, hbids, hasks, -⟩ := h
    simp only [FastMessage.InDepth, FastMessage.map, FastMessage.levelCounts, forall_mem_cons,
      narrow, BitVec.toNat_setWidth, Nat.mod_eq_of_lt hbids, Nat.mod_eq_of_lt hasks]
    simp
  | _ => simp [FastMessage.InDepth, FastMessage.map, FastMessage.levelCounts]

end ExchangeSim
