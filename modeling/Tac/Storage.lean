/-!
# Storage that grows

Instructions are collected in storage of a fixed capacity.  When an append does not fit, a larger
block takes its place: twice as large while storage is small, a quarter larger and a little more
after that, and then as much as the memory block holds that the allocator gives.  What is left over
after the last append is the room that the storage has.
-/

namespace Tac.Storage

/-- The sizes of small memory blocks, in bytes. -/
def blockSizes : List Nat :=
  [8, 16, 24, 32, 48, 64, 80, 96, 112, 128, 144, 160, 176, 192, 208, 224, 240, 256, 288, 320, 352,
    384, 416, 448, 480, 512, 576, 640, 704, 768, 896, 1024, 1152, 1280, 1408, 1536, 1792, 2048, 2304,
    2688, 3072, 3200, 3456, 4096, 4864, 5120, 5376, 6144, 6528, 6784, 6912, 8192, 9472, 9728, 10240,
    10880, 12288, 13568, 14336, 16384, 18432, 19072, 20480, 21760, 24576, 27264, 28672, 32768]

/-- The size of a memory page, of which larger blocks are made. -/
def pageSize : Nat := 8192

/-- Bytes at the start of a block of more than 512 bytes that the allocator keeps for itself. -/
def headerSize (bytes : Nat) : Nat := if 512 < bytes then 8 else 0

/-- The bytes that can be used in the block for a request. -/
def usable (bytes : Nat) : Nat :=
  match blockSizes.find? fun size => bytes + headerSize bytes ≤ size with
  | some size => size - headerSize bytes
  | none => (bytes + pageSize - 1) / pageSize * pageSize

/-- The bytes that an instruction takes. -/
def instrSize : Nat := 16

/-- The capacity that full storage asks for when it has to hold `need` instructions. -/
def wanted (capacity need : Nat) : Nat :=
  if 2 * capacity < need then need
  else if capacity < 256 then 2 * capacity
  else max need (capacity + (capacity + 768) / 4)

/-- The capacity after growth to hold `need` instructions. -/
def grow (capacity need : Nat) : Nat := usable (instrSize * wanted capacity need) / instrSize

/-- Storage: how many instructions it holds, and how many it can hold. -/
structure Extent where
  length : Nat := 0
  capacity : Nat := 0
deriving DecidableEq, Repr

namespace Extent

/-- The extent after `n` more instructions. -/
def append (e : Extent) (n : Nat) : Extent where
  length := e.length + n
  capacity := if e.length + n ≤ e.capacity then e.capacity else grow e.capacity (e.length + n)

/-- How many more instructions fit. -/
def room (e : Extent) : Nat := e.capacity - e.length

end Extent

/-- The extent of storage that was filled by appends of the given lengths. -/
def extent (lengths : List Nat) : Extent := lengths.foldl Extent.append {}

end Tac.Storage
