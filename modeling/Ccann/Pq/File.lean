import Ccann.Bytes.Slices

/-! The compressed-vector file `_pq_compressed.bin`: two 32-bit counts, rows and bytes per
row, and then the rows. A file is its bytes, with zeros past its end, which is what a file
extended by `get_dax` or by a write behind its end reads as. `saveBin` and `loadBin` place
the rows behind the counts; the writers that update single rows while the index is open
place the code of `id` at `id * n_chunks`. -/

namespace Ccann.Pq

abbrev File := ℕ → ℕ

def writeAt (offset : ℕ) (bytes : List ℕ) (f : File) : File := fun p =>
  if offset ≤ p then bytes[p - offset]?.getD (f p) else f p

def readInt (f : File) (offset : ℕ) : ℕ :=
  f offset + 256 * f (offset + 1) + 65536 * f (offset + 2) + 16777216 * f (offset + 3)

/-- `npts` as `load_bin` reads it. -/
def numRows (f : File) : ℕ :=
  readInt f 0

/-- `dim` as `load_bin` reads it. -/
def rowBytes (f : File) : ℕ :=
  readInt f 4

def headerBytes : ℕ := 8

def row (f : File) (x : ℕ) : List ℕ :=
  (List.range (rowBytes f)).map fun j => f (headerBytes + x * rowBytes f + j)

/-- The array that `load_bin` fills, by rows; there is nothing past its end. -/
def loadBin (f : File) (x : ℕ) : Option (List ℕ) :=
  if x < numRows f then some (row f x) else none

end Ccann.Pq
