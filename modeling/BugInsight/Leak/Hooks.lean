import BugInsight.Leak.Repository
import BugInsight.Runs

/-!
# The hooks of `malloc`, `realloc` and `free`

`bi_malloc`, `bi_realloc` and `bi_free` of `malloc_monitor.hpp`, run by any number of threads.  The
single steps of a hook (the call of the real function, the lookup of an address, `erase`, `add`) are
atomic, and other threads may come in between.

The application calls the hooks with blocks that it was given and that no other thread works on:
`blocks` says for every live block who may use it.  The real allocator returns any address that is
not live.
-/

namespace BugInsight

/-- Who may use a live block. -/
inductive Holder
  /-- the code of a thread, outside of the hooks -/
  | app (threadId : ℕ)
  /-- the hook that a thread is in -/
  | hook (threadId : ℕ)
  deriving DecidableEq

/-- What a thread does next, with the local variables of its hook. -/
inductive Pc
  | idle
  | mallocReal (size : ℕ)
  | reallocLookup (memblock size : ℕ)
  | reallocReal (memblock size : ℕ) (foundAddress : Bool)
  /-- the old pointer is about to be deleted; `p` is what `realloc` returned -/
  | reallocErase (memblock p size : ℕ)
  | add (p size : ℕ) (function : ApiFunction)
  | freeLookup (pUser : ℕ)
  | freeErase (pUser : ℕ)
  | freeReal (pUser : ℕ)
  deriving DecidableEq

/-- The repository, the blocks and the threads. -/
structure LeakState where
  repo : MemoryLeakRepository
  /-- the live blocks -/
  blocks : ℕ → Option Holder
  pc : ℕ → Pc
  log : List Report

/-- A call of a hook. -/
inductive HookCall
  | malloc (size : ℕ)
  | realloc (memblock size : ℕ)
  | free (pUser : ℕ)

/-- What threads do. -/
inductive LeakCall
  | call (threadId : ℕ) (c : HookCall)
  /-- the next step of a hook, with the address that the real allocator returns -/
  | next (threadId result : ℕ)
  /-- a block is handed to another thread -/
  | give (threadId threadId' block : ℕ)

namespace LeakState

variable (o : UserOptions) (s : LeakState) (t : ℕ)

/-- The start of the application. -/
def init : LeakState where
  repo := ∅
  blocks := fun _ => none
  pc := fun _ => .idle
  log := []

/-- A thread goes on. -/
def goto (pc : Pc) : LeakState := { s with pc := Function.update s.pc t pc }

/-- A block changes hands. -/
def setBlock (p : ℕ) (h : Option Holder) : LeakState :=
  { s with blocks := Function.update s.blocks p h }

/-- A hook is called with a block of the thread, or with none. -/
def take (p : ℕ) (pc : Pc) : Option LeakState :=
  if s.blocks p = some (.app t) then some ((s.setBlock p (some (.hook t))).goto t pc) else none

/-- A hook is called. -/
def call : HookCall → Option LeakState
  | .malloc size => some (s.goto t (.mallocReal size))
  | .realloc memblock size =>
      if memblock = nullptr then some (s.goto t (.reallocReal nullptr size false))
      else s.take t memblock (.reallocLookup memblock size)
  | .free pUser =>
      if pUser = nullptr then some (s.goto t (.freeReal nullptr))
      else s.take t pUser (.freeLookup pUser)

/-- `log_or_abort_if_memory_adddress_is_unknown`, and how the hook goes on. -/
def lookup (block : ℕ) (function : ApiFunction) (pc : Bool → Pc) : Option LeakState :=
  match logOrAbortIfMemoryAddressIsUnknown s.repo t block .malloc function with
  | (found, some r) =>
      (processError o s.log r).map fun log => { s with log := log }.goto t (pc found)
  | (found, none) => some (s.goto t (pc found))

/-- The real allocator returns a new block, which is not live yet. -/
def alloc (p : ℕ) (pc : Pc) : Option LeakState :=
  if s.blocks p = none then some ((s.setBlock p (some (.hook t))).goto t pc) else none

/-- The next step of a hook. -/
def next (result : ℕ) : Option LeakState :=
  match s.pc t with
  | .idle => none
  | .mallocReal size =>
      if result = nullptr then some (s.goto t .idle) else s.alloc t result (.add result size .malloc)
  | .reallocLookup memblock size =>
      s.lookup o t memblock .realloc fun found => .reallocReal memblock size found
  | .reallocReal memblock size found =>
      if result = nullptr then
        if memblock ≠ nullptr ∧ size = 0 then
          -- like `free(memblock)`
          some ((s.setBlock memblock none).goto t
            (if found then .reallocErase memblock nullptr size else .idle))
        else if memblock = nullptr then some (s.goto t .idle)
        else some ((s.setBlock memblock (some (.app t))).goto t .idle)
      else
        (if memblock = nullptr then s else s.setBlock memblock none).alloc t result
          (if found then .reallocErase memblock result size else .add result size .realloc)
  | .reallocErase memblock p size =>
      some ({ s with repo := s.repo.erase (0, memblock) }.goto t
        (if p = nullptr then .idle else .add p size .realloc))
  | .add p size function =>
      some (({ s with repo := s.repo.add p size .malloc function }.setBlock p
        (some (.app t))).goto t .idle)
  | .freeLookup pUser =>
      s.lookup o t pUser .free fun found => if found then .freeErase pUser else .freeReal pUser
  | .freeErase pUser => some ({ s with repo := s.repo.erase (0, pUser) }.goto t (.freeReal pUser))
  | .freeReal pUser =>
      some ((if pUser = nullptr then s else s.setBlock pUser none).goto t .idle)

/-- One step; `none` if it is not possible or terminates the process. -/
def step : LeakCall → Option LeakState
  | .call t c => if s.pc t = .idle then s.call t c else none
  | .next t result => s.next o t result
  | .give t t' p =>
      if s.blocks p = some (.app t) then some (s.setBlock p (some (.app t'))) else none

end LeakState

end BugInsight
