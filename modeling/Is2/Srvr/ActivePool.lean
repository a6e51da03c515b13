import Mathlib.Data.List.AList
import Is2.Srvr.NconnPool

/-!
# The map of active sets

`NconnPool` has the active connections as one set of pairs.  The source has more to keep in order:
`m_active_conn_map` is a map from labels to sets, from which a set is erased with its last
connection, and `m_active_conn_map_size` is a counter beside it that is kept by hand.  Here the pool
works on the two, as it does in the source; what it does with the other containers is the same.

**Model.**  As in `NconnPool`, connections are named by numbers, and using one that does not exist
is undefined (`none`).  The counter goes down on a 64-bit word.  A `NULL` that is passed is `none`.

A `Ledger` is a pool with the connections that its callers have: those that `get_new_active` or
`get_idle` returned and that were not passed to `add_idle` or `release` since.
-/

namespace Is2

/-- `active_conn_map_t`: each label once, with a set of connections. -/
abbrev ActiveConnMap := AList fun _ : String => Finset ℕ

/-- `nconn_pool`, with the connections that exist and the name of the next one. -/
structure ActivePool (ρ : Type) where
  nconns : ℕ → Option (Nconn ρ)
  next : ℕ
  activeConnMap : ActiveConnMap
  activeConnMapSize : ℕ
  activeConnMapMaxSize : ℕ
  idleConnLru : Nlru ℕ
  reapList : List ℕ

namespace ActivePool

variable {ρ : Type}

/-- The constructor. -/
def new (maxActiveSize maxIdleSize : ℕ) : ActivePool ρ where
  nconns := fun _ => none
  next := 0
  activeConnMap := ∅
  activeConnMapSize := 0
  activeConnMapMaxSize := maxActiveSize
  idleConnLru := Nlru.new maxIdleSize
  reapList := []

/-! ## The private functions -/

/-- A change of one connection. -/
def update (p : ActivePool ρ) (c : ℕ) (f : Nconn ρ → Nconn ρ) : ActivePool ρ :=
  { p with nconns := Function.update p.nconns c ((p.nconns c).map f) }

/-- `nconn_pool::add_active`. -/
def addActive (p : ActivePool ρ) (c : ℕ) : Option (ActivePool ρ) := do
  let n ← p.nconns c
  let cs := (p.activeConnMap.lookup n.label).elim {c} (insert c)
  some { p with
    activeConnMap := p.activeConnMap.insert n.label cs
    activeConnMapSize := p.activeConnMapSize + 1 }

/-- `nconn_pool::remove_active`, and whether it returned `STATUS_OK`. -/
def removeActive (p : ActivePool ρ) (c : ℕ) : Option (ActivePool ρ × Bool) := do
  let n ← p.nconns c
  match p.activeConnMap.lookup n.label with
  | none => some (p, false)
  | some cs =>
      if c ∈ cs then
        some ({ p with
          activeConnMap :=
            if (cs.erase c).card = 0 then p.activeConnMap.erase n.label
            else p.activeConnMap.insert n.label (cs.erase c)
          activeConnMapSize := sub64 p.activeConnMapSize 1 }, true)
      else some (p, false)

/-- `nconn_pool::remove_idle`. -/
def removeIdle (p : ActivePool ρ) (c : ℕ) : Option (ActivePool ρ) := do
  let n ← p.nconns c
  if p.idleConnLru.itemListSize ≠ 0 then
    some { p with idleConnLru := p.idleConnLru.remove n.id }
  else some p

/-- `nconn_pool::cleanup`. -/
def cleanup (cls : NconnClass ρ) (p : ActivePool ρ) (c : ℕ) : Option (ActivePool ρ) := do
  let _ ← p.nconns c
  some { p.update c (fun n => { n with rest := cls.ncCleanup n.rest }) with
    reapList := p.reapList ++ [c] }

/-- The delete callback of the LRU, if it was called. -/
def deleteCb (cls : NconnClass ρ) (p : ActivePool ρ) : Option ℕ → Option (ActivePool ρ)
  | none => some p
  | some c => p.cleanup cls c

/-! ## The public functions -/

/-- `nconn_pool::get_new_active`; no connection is `NULL`. -/
def getNewActive (cls : NconnClass ρ) (p : ActivePool ρ) (label : String) (scheme : Scheme) :
    Option (ActivePool ρ × Option ℕ) :=
  if p.activeConnMapMaxSize ≤ p.activeConnMapSize then some (p, none)
  else do
    let r ← cls.create scheme
    let c := p.next
    let p := { p with
      nconns := Function.update p.nconns c (some { label := label, id := 0, rest := r })
      next := p.next + 1 }
    let p ← p.addActive c
    some (p, some c)

/-- `nconn_pool::get_active_label`. -/
def getActiveLabel (p : ActivePool ρ) (label : String) : ℕ :=
  match p.activeConnMap.lookup label with
  | some cs => cs.card
  | none => 0

/-- `nconn_pool::get_idle`. -/
def getIdle (p : ActivePool ρ) (label : String) : Option (ActivePool ρ × Option ℕ) :=
  match p.idleConnLru.get label with
  | none => some (p, none)
  | some (c, lru) => do
      let p ← { p with idleConnLru := lru }.addActive c
      some (p, some c)

/-- `nconn_pool::add_idle`, and whether it returned `STATUS_OK`.  The LRU id passes through an
`id_t`, which here is that of the system, of 32 bits. -/
def addIdle (cls : NconnClass ρ) (p : ActivePool ρ) : Option ℕ → Option (ActivePool ρ × Bool)
  | none => some (p, false)
  | some c => do
      let (p, ok) ← p.removeActive c
      if ok then do
        let n ← p.nconns c
        let (lru, id, evicted) := p.idleConnLru.insert n.label c
        let p ← { p with idleConnLru := lru }.deleteCb cls evicted
        some (p.update c (fun n => { n with id := id % 2 ^ 32 }), true)
      else some (p, false)

/-- `nconn_pool::release`. -/
def release (cls : NconnClass ρ) (p : ActivePool ρ) : Option ℕ → Option (ActivePool ρ)
  | none => some p
  | some c => do
      let (p, _) ← p.removeActive c
      let p ← p.removeIdle c
      p.cleanup cls c

/-- The loop of `nconn_pool::evict_all_idle`.  A turn that leaves the size as it is leaves the LRU
as it is, and the loop never ends. -/
def evictLoop (cls : NconnClass ρ) : ℕ → ActivePool ρ → Option (ActivePool ρ)
  | 0, p => if p.idleConnLru.itemListSize ≠ 0 then none else some p
  | n + 1, p =>
      if p.idleConnLru.itemListSize ≠ 0 then do
        let (lru, evicted) := p.idleConnLru.evict
        let p ← { p with idleConnLru := lru }.deleteCb cls evicted
        evictLoop cls n p
      else some p

/-- `nconn_pool::evict_all_idle`. -/
def evictAllIdle (cls : NconnClass ρ) (p : ActivePool ρ) : Option (ActivePool ρ) :=
  evictLoop cls p.idleConnLru.itemListSize p

/-- `nconn_pool::reap`.  Deleting a connection twice is undefined. -/
def reap (p : ActivePool ρ) : Option (ActivePool ρ) :=
  (p.reapList.foldlM (fun (nconns : ℕ → Option (Nconn ρ)) c => do
    let _ ← nconns c
    some (Function.update nconns c none)) p.nconns).map
      fun nconns => { p with nconns := nconns, reapList := [] }

/-! ## Runs -/

/-- The calls on a pool.  Any connection may be passed. -/
inductive Call where
  | getNewActive (label : String) (scheme : Scheme)
  | getIdle (label : String)
  | addIdle (c : Option ℕ)
  | release (c : Option ℕ)
  | evictAllIdle
  | reap
deriving DecidableEq, Repr

/-- A pool, and the connections that its callers have from it. -/
structure Ledger (ρ : Type) where
  pool : ActivePool ρ
  out : Finset ℕ

/-- One call: what is returned is out, and what is passed back is not. -/
def Ledger.run (cls : NconnClass ρ) (s : Ledger ρ) : Call → Option (Ledger ρ)
  | .getNewActive label scheme =>
      (s.pool.getNewActive cls label scheme).map fun r => ⟨r.1, r.2.elim s.out (insert · s.out)⟩
  | .getIdle label =>
      (s.pool.getIdle label).map fun r => ⟨r.1, r.2.elim s.out (insert · s.out)⟩
  | .addIdle c => (s.pool.addIdle cls c).map fun r => ⟨r.1, c.elim s.out s.out.erase⟩
  | .release c => (s.pool.release cls c).map fun p => ⟨p, c.elim s.out s.out.erase⟩
  | .evictAllIdle => (s.pool.evictAllIdle cls).map fun p => ⟨p, s.out⟩
  | .reap => s.pool.reap.map fun p => ⟨p, s.out⟩

/-- Every sequence of calls on a pool with the maxima `maxActiveSize` and `maxIdleSize`. -/
def machine (cls : NconnClass ρ) (maxActiveSize maxIdleSize : ℕ) : Machine (Ledger ρ) Call where
  start s := s = ⟨new maxActiveSize maxIdleSize, ∅⟩
  step s call t := s.run cls call = some t

end ActivePool

end Is2
