import KiteNdn.Rib.UpdaterContext

/-!
# The nexthop of an entry for its own routes

An entry may have several routes on one face, and its nexthop there should have the cost of the
cheapest of them. Unregistering one of the routes and registering one of them again are compared
with this. The capture counters and the inherited routes that entries have recorded may be anything
here.
-/

namespace KiteNdn.Routing

open List FibUpdater

variable {x next : Route} {routes : List Route} {f : FaceId} {c : Nat}

def Fib.after (fib : Fib) (u : FibUpdater) : Fib := u.updates.foldl (Fib.execute []) fib

section Unregistration

variable {rib : Rib} {n : Name} {p : EntryId} {e : RibEntry} {base : Cells}

variable (h : rib.Linked) (hp : rib.find n = some p) (hn : e.name = n)
  (hchildren : e.children = (rib.heap p).children)

include h hp hn hchildren

omit hn hchildren

omit h hp

end Unregistration

section Reregistration

variable {rib : Rib} {n : Name} {p : EntryId} {e : RibEntry} {base : Cells} {old new : Route}
  {rest : List Route}

variable (h : rib.Linked) (hp : rib.find n = some p) (hn : e.name = n)
  (hchildren : e.children = (rib.heap p).children) (hf : e.hasFaceId new.faceId = true)

include h hp hn hchildren hf

omit h hp hn hchildren hf

end Reregistration

end KiteNdn.Routing
