/-!
# Byte strings as lists

Streams hold their bytes in byte strings, which index fast; what a number or a
dump spells is a list. The two are the same sequence of bytes, and `packed` and
`unpacked` go from one to the other.
-/

namespace ObjectStream

-- Byte strings are compared as in the core library, whatever else is imported.
attribute [instance (20000)] ByteArray.instDecidableEq

def packed (bytes : List UInt8) : ByteArray := ⟨bytes.toArray⟩

def unpacked (bytes : ByteArray) : List UInt8 := bytes.data.toList

@[simp] theorem unpacked_packed (bytes : List UInt8) : unpacked (packed bytes) = bytes := rfl

@[simp] theorem packed_unpacked (bytes : ByteArray) : packed (unpacked bytes) = bytes := rfl

@[simp] theorem size_packed (bytes : List UInt8) : (packed bytes).size = bytes.length := rfl

theorem length_unpacked (bytes : ByteArray) : (unpacked bytes).length = bytes.size := rfl

theorem packed_append (a b : List UInt8) : packed (a ++ b) = packed a ++ packed b := by
  apply ByteArray.ext
  simp [packed]

@[simp] theorem unpacked_append (a b : ByteArray) :
    unpacked (a ++ b) = unpacked a ++ unpacked b := by
  simp [unpacked]

end ObjectStream
