import ExactNeighbors.Index.Scan
import ExactNeighbors.Ranking.PerLabel

set_option autoImplicit false

/-! # Machines

What an index leaves to the machine that it is on: how many threads there are, how a scan is cut for
them and what tables do. None of it is settled before a question is asked, and no answer depends on
it. -/

namespace ExactNeighbors

/-- A machine, and how it goes about a scan. -/
structure Machine where
  /-- The threads that a scan has where the settings leave it open. -/
  threads : Nat
  /-- How the blocks of a store are cut for some threads. -/
  cutBlocks (threads : Nat) (s : Store) : Cut
  /-- How the rows of a block are cut. -/
  cutRows (threads : Nat) (s : Store) (b : Block) : Cut
  tables : Tables

namespace Machine

/-- Halves the blocks until there is a piece for each thread, and the rows too where there are too few
    blocks for that. -/
def halving (threads : Nat) (tables : Tables) : Machine where
  threads := threads
  cutBlocks threads s := .halving threads.log2 s.blocks.size
  cutRows threads s b :=
    .halving (if threads.log2 ≤ s.blocks.size.log2 then 0 else threads.log2) b.size
  tables := tables

/-- A machine of one thread, for what is small. -/
def small : Machine := halving 1 (.upTo (1 <<< 32))

end Machine

end ExactNeighbors
