import Is2.Core.Machine
import Is2.Core.Words
import Is2.Support.Nlru

/-!
# The pool of upstream connections

`nconn_pool` creates connections, keeps those in use in `m_active_conn_map` and those that wait for
another request in an LRU, and collects those that are finished in `m_reap_list`, from where `reap`
deletes them.  `Is2.Srvr.PoolPartition` has the results.

**Model.**  Connections are named by numbers; `nconns` is the memory they live in.  What the pool
reads and writes of a connection is its label and its LRU id, which is `0` until it is set; the rest
of a connection, what a new one looks like and what `nc_cleanup` makes of it are parameters.  Using
a connection that does not exist is undefined, and so is creating one with a scheme that has no
connection class: there the functions return `none`.
-/

namespace Is2

/-- `scheme_t`. -/
inductive Scheme where
  | tcp
  | tls
  | none
deriving DecidableEq, Repr

/-- `nconn`, as the pool sees it. -/
structure Nconn (ρ : Type) where
  label : String
  id : ℕ
  rest : ρ
deriving DecidableEq, Repr

/-- What the pool is used with: the constructors of the connection classes, as
`nconn_pool::s_create_new_conn` picks them, and `nconn::nc_cleanup`. -/
structure NconnClass (ρ : Type) where
  create : Scheme → Option ρ
  ncCleanup : ρ → ρ

/-- `nconn_pool`, with the connections that exist and the name of the next one. -/
structure NconnPool (ρ : Type) where
  nconns : ℕ → Option (Nconn ρ)
  next : ℕ
  activeConnMap : Finset (String × ℕ)
  activeConnMapSize : ℕ
  activeConnMapMaxSize : ℕ
  idleConnLru : Nlru ℕ
  reapList : List ℕ

namespace NconnPool

variable {ρ : Type}

/-- The constructor. -/
def new (maxActiveSize maxIdleSize : ℕ) : NconnPool ρ where
  nconns := fun _ => none
  next := 0
  activeConnMap := ∅
  activeConnMapSize := 0
  activeConnMapMaxSize := maxActiveSize
  idleConnLru := Nlru.new maxIdleSize
  reapList := []

/-! ## The private functions -/

/-- A change of one connection. -/
def update (p : NconnPool ρ) (c : ℕ) (f : Nconn ρ → Nconn ρ) : NconnPool ρ :=
  { p with nconns := Function.update p.nconns c ((p.nconns c).map f) }

/-- `nconn_pool::add_active`. -/
def addActive (p : NconnPool ρ) (c : ℕ) : Option (NconnPool ρ) := do
  let n ← p.nconns c
  some { p with
    activeConnMap := insert (n.label, c) p.activeConnMap
    activeConnMapSize := p.activeConnMapSize + 1 }

/-- `nconn_pool::remove_active`, and whether it returned `STATUS_OK`. -/
def removeActive (p : NconnPool ρ) (c : ℕ) : Option (NconnPool ρ × Bool) := do
  let n ← p.nconns c
  if (n.label, c) ∈ p.activeConnMap then
    some ({ p with
      activeConnMap := p.activeConnMap.erase (n.label, c)
      activeConnMapSize := p.activeConnMapSize - 1 }, true)
  else some (p, false)

/-- `nconn_pool::remove_idle`. -/
def removeIdle (p : NconnPool ρ) (c : ℕ) : Option (NconnPool ρ) := do
  let n ← p.nconns c
  if p.idleConnLru.itemListSize ≠ 0 then
    some { p with idleConnLru := p.idleConnLru.remove n.id }
  else some p

/-- `nconn_pool::cleanup`. -/
def cleanup (cls : NconnClass ρ) (p : NconnPool ρ) (c : ℕ) : Option (NconnPool ρ) := do
  let _ ← p.nconns c
  some { p.update c (fun n => { n with rest := cls.ncCleanup n.rest }) with
    reapList := p.reapList ++ [c] }

/-- The delete callback of the LRU, if it was called. -/
def deleteCb (cls : NconnClass ρ) (p : NconnPool ρ) : Option ℕ → Option (NconnPool ρ)
  | none => some p
  | some c => p.cleanup cls c

/-! ## The public functions -/

/-- `nconn_pool::get_new_active`; no connection is `NULL`. -/
def getNewActive (cls : NconnClass ρ) (p : NconnPool ρ) (label : String) (scheme : Scheme) :
    Option (NconnPool ρ × Option ℕ) :=
  if p.activeConnMapMaxSize ≤ p.activeConnMapSize then some (p, none)
  else do
    let r ← cls.create scheme
    let c := p.next
    let p := { p with
      nconns := Function.update p.nconns c (some { label := label, id := 0, rest := r })
      next := p.next + 1 }
    let p ← p.addActive c
    some (p, some c)

/-- `nconn_pool::get_active_available`. -/
def getActiveAvailable (p : NconnPool ρ) : ℕ :=
  sub64 p.activeConnMapMaxSize p.activeConnMapSize

/-- `nconn_pool::get_idle`. -/
def getIdle (p : NconnPool ρ) (label : String) : Option (NconnPool ρ × Option ℕ) :=
  match p.idleConnLru.get label with
  | none => some (p, none)
  | some (c, lru) => do
      let p ← { p with idleConnLru := lru }.addActive c
      some (p, some c)

/-- `nconn_pool::add_idle`, and whether it returned `STATUS_OK`.  The LRU id passes through an
`id_t`, which here is that of the system, of 32 bits. -/
def addIdle (cls : NconnClass ρ) (p : NconnPool ρ) (c : ℕ) : Option (NconnPool ρ × Bool) := do
  let (p, ok) ← p.removeActive c
  if ok then do
    let n ← p.nconns c
    let (lru, id, evicted) := p.idleConnLru.insert n.label c
    let p ← { p with idleConnLru := lru }.deleteCb cls evicted
    some (p.update c (fun n => { n with id := id % 2 ^ 32 }), true)
  else some (p, false)

/-- `nconn_pool::release`. -/
def release (cls : NconnClass ρ) (p : NconnPool ρ) (c : ℕ) : Option (NconnPool ρ) := do
  let (p, _) ← p.removeActive c
  let p ← p.removeIdle c
  p.cleanup cls c

/-- The loop of `nconn_pool::evict_all_idle`.  A turn that leaves the size as it is leaves the LRU
as it is, and the loop never ends. -/
def evictLoop (cls : NconnClass ρ) : ℕ → NconnPool ρ → Option (NconnPool ρ)
  | 0, p => if p.idleConnLru.itemListSize ≠ 0 then none else some p
  | n + 1, p =>
      if p.idleConnLru.itemListSize ≠ 0 then do
        let (lru, evicted) := p.idleConnLru.evict
        let p ← { p with idleConnLru := lru }.deleteCb cls evicted
        evictLoop cls n p
      else some p

/-- `nconn_pool::evict_all_idle`. -/
def evictAllIdle (cls : NconnClass ρ) (p : NconnPool ρ) : Option (NconnPool ρ) :=
  evictLoop cls p.idleConnLru.itemListSize p

/-- `nconn_pool::reap`.  Deleting a connection twice is undefined. -/
def reap (p : NconnPool ρ) : Option (NconnPool ρ) :=
  (p.reapList.foldlM (fun (nconns : ℕ → Option (Nconn ρ)) c => do
    let _ ← nconns c
    some (Function.update nconns c none)) p.nconns).map
      fun nconns => { p with nconns := nconns, reapList := [] }

/-! ## Where a connection is -/

/-- The active connections. -/
def active (p : NconnPool ρ) : Finset ℕ := p.activeConnMap.image Prod.snd

/-- The connections in the idle LRU. -/
def idle (p : NconnPool ρ) : List ℕ := p.idleConnLru.itemList.map Prod.snd

/-- How often a connection is in the active sets, in the idle LRU and in the reap list. -/
def place (p : NconnPool ρ) (c : ℕ) : ℕ × ℕ × ℕ :=
  (if c ∈ p.active then 1 else 0, p.idle.count c, p.reapList.count c)

/-- In exactly one of the three places, and there once. -/
def InOnePlace (p : NconnPool ρ) (c : ℕ) : Prop :=
  p.place c = (1, 0, 0) ∨ p.place c = (0, 1, 0) ∨ p.place c = (0, 0, 1)

instance (p : NconnPool ρ) (c : ℕ) : Decidable (p.InOnePlace c) :=
  inferInstanceAs (Decidable (_ ∨ _))

/-! ## The pool as a machine -/

/-- The calls on a pool. -/
inductive Op where
  | getNewActive (label : String) (scheme : Scheme)
  | getIdle (label : String)
  | addIdle (c : ℕ)
  | release (c : ℕ)
  | evictAllIdle
  | reap
deriving DecidableEq, Repr

/-- The connections a caller may hand to the pool: those it holds as active, and idle ones. -/
def Held (p : NconnPool ρ) (c : ℕ) : Prop := c ∈ p.active ∨ c ∈ p.idle

instance (p : NconnPool ρ) (c : ℕ) : Decidable (p.Held c) :=
  inferInstanceAs (Decidable (_ ∨ _))

/-- One call. -/
def run (cls : NconnClass ρ) (p : NconnPool ρ) : Op → Option (NconnPool ρ)
  | .getNewActive label scheme => (p.getNewActive cls label scheme).map Prod.fst
  | .getIdle label => (p.getIdle label).map Prod.fst
  | .addIdle c => if p.Held c then (p.addIdle cls c).map Prod.fst else none
  | .release c => if p.Held c then p.release cls c else none
  | .evictAllIdle => p.evictAllIdle cls
  | .reap => p.reap

/-- Every sequence of calls on a pool with the maxima `maxActiveSize` and `maxIdleSize`. -/
def machine (cls : NconnClass ρ) (maxActiveSize maxIdleSize : ℕ) : Machine (NconnPool ρ) Op where
  start p := p = new maxActiveSize maxIdleSize
  step p op q := p.run cls op = some q

end NconnPool

end Is2
