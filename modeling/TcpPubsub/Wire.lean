import Mathlib

/-!
# Wire format of a frame

A frame is a little-endian header followed by `data_size` payload bytes.  The header
declaration (`tcp_header.h`) is not among the sources, so its layout is the one of the wire
description: `header_size` (u16) at offset 0, `type` at 2, `reserved` at 3, `data_size` (u64)
at 4, and reserved bytes up to 16.  A receiver reads a stream frame by frame: it reads the
header and takes `header_size + data_size` bytes.
-/

namespace TcpPubsub.Wire

abbrev Byte := Fin 256

/-- `htole16`/`htole64` as stored to memory: the `width` little-endian bytes of `value`; bits
above `8 * width` are dropped. -/
def toLE : ℕ → ℕ → List Byte
  | 0, _ => []
  | width + 1, value => ⟨value % 256, Nat.mod_lt _ (by norm_num)⟩ :: toLE width (value / 256)

/-- The natural number whose little-endian bytes are `bytes`. -/
def ofLE : List Byte → ℕ
  | [] => 0
  | byte :: bytes => byte.val + 256 * ofLE bytes

@[simp]
theorem length_toLE (width value : ℕ) : (toLE width value).length = width := by
  induction width generalizing value with
  | zero => rfl
  | succ width ih => simp [toLE, ih]

theorem ofLE_toLE (width value : ℕ) : ofLE (toLE width value) = value % 256 ^ width := by
  induction width generalizing value with
  | zero => simp [toLE, ofLE, Nat.mod_one]
  | succ width ih =>
      simp only [toLE, ofLE, ih, pow_succ']
      rw [Nat.mod_mul]

theorem ofLE_toLE_of_lt {width value : ℕ} (hvalue : value < 256 ^ width) :
    ofLE (toLE width value) = value := by
  rw [ofLE_toLE, Nat.mod_eq_of_lt hvalue]

/-- `MessageContentType`; the enumerator values are those of the wire description. -/
inductive MessageContentType
  | regularPayload
  | protocolHandshake
  deriving DecidableEq, Repr

def MessageContentType.toByte : MessageContentType → Byte
  | regularPayload => 0
  | protocolHandshake => 1

/-- Modelled from the spec: `tcp_header.h` is not under src/; `sizeof(TcpHeader)` is the
16-byte header of the wire description. -/
def sizeofTcpHeader : ℕ := 16

/-- Modelled from the spec: offsets of the header fields. -/
def headerSizeOffset : ℕ := 0
def typeOffset : ℕ := 2
def reservedOffset : ℕ := 3
def dataSizeOffset : ℕ := 4

/-- The header fields as a receiver reads them. -/
structure TcpHeader where
  headerSize : ℕ
  type : Byte
  reserved : Byte
  dataSize : ℕ
  deriving DecidableEq, Repr

/-- Reading the header fields at their offsets. -/
def readHeader (bytes : List Byte) : TcpHeader where
  headerSize := ofLE ((bytes.drop headerSizeOffset).take 2)
  type := bytes.getD typeOffset 0
  reserved := bytes.getD reservedOffset 0
  dataSize := ofLE ((bytes.drop dataSizeOffset).take 8)

/-- The fields are read from the first twelve bytes only. -/
theorem readHeader_append {bytes : List Byte} (rest : List Byte)
    (hlength : 12 ≤ bytes.length) : readHeader (bytes ++ rest) = readHeader bytes := by
  have htake : ∀ offset width, offset + width ≤ 12 →
      ((bytes ++ rest).drop offset).take width = (bytes.drop offset).take width := by
    intro offset width hwidth
    rw [List.drop_append_of_le_length (by omega),
      List.take_append_of_le_length (by simp; omega)]
  simp only [readHeader, headerSizeOffset, typeOffset, reservedOffset, dataSizeOffset,
    htake 0 2 (by norm_num), htake 4 8 (by norm_num),
    List.getD_append _ _ _ _ (show 2 < bytes.length by omega),
    List.getD_append _ _ _ _ (show 3 < bytes.length by omega)]

theorem readHeader_take {bytes : List Byte} (count : ℕ) (hcount : 12 ≤ count)
    (hlength : 12 ≤ bytes.length) : readHeader (bytes.take count) = readHeader bytes := by
  conv_rhs => rw [← List.take_append_drop count bytes]
  rw [readHeader_append _ (by simp; omega)]

/-- A frame whose header covers at least the header record and whose length is the one its
header declares. -/
structure WellFormed (frame : List Byte) : Prop where
  headerSize_ge : sizeofTcpHeader ≤ (readHeader frame).headerSize
  length_eq : frame.length = (readHeader frame).headerSize + (readHeader frame).dataSize

end TcpPubsub.Wire
