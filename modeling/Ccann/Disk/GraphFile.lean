import Ccann.Disk.CachedIo

/-! The file of an in-memory graph: a header with the size of the file, the largest degree, the
entry point and the number of frozen points, and then the neighbour lists in the order of the
nodes, each with its length in front. -/

namespace Ccann.Disk

open Bytes

structure GraphFile where
  indexSize : ℕ
  width : ℕ
  medoid : ℕ
  frozen : ℕ
  nhoods : List (List ℕ)
  deriving DecidableEq

def nhoodBytes (nhood : List ℕ) : List ℕ :=
  toBytes 4 nhood.length ++ ofWords 4 nhood

namespace GraphFile

variable (G : GraphFile)

def header : List ℕ :=
  toBytes 8 G.indexSize ++ (toBytes 4 G.width ++ (toBytes 4 G.medoid ++ toBytes 8 G.frozen))

def bytes : List ℕ :=
  G.header ++ G.nhoods.flatMap nhoodBytes

structure Fits : Prop where
  indexSize : G.indexSize < 256 ^ 8
  width : G.width < 256 ^ 4
  medoid : G.medoid < 256 ^ 4
  frozen : G.frozen < 256 ^ 8
  length : ∀ l ∈ G.nhoods, l.length < 256 ^ 4
  ids : ∀ l ∈ G.nhoods, ∀ y ∈ l, y < 256 ^ 4

end GraphFile

/-- A plain stream gives a word that was written. -/
theorem readBytes_toBytes (w n : ℕ) (rest : List ℕ) :
    readBytes w (toBytes w n ++ rest) = some (toBytes w n, rest) := by
  have h := readBytes_append (toBytes w n) rest
  rwa [length_toBytes] at h

end Ccann.Disk
