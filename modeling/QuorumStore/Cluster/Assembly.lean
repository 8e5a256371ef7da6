import QuorumStore.Cluster.Replicas
import QuorumStore.Membership.Network
import QuorumStore.Repair.Backlog

/-!
# A cluster in one process

A coordinating member on a bus with one replica per listed host, its registry
reconciled once, and a repair queue that is worked off between any two steps.
Where chance would choose replicas, the order of the peers is taken as it is.
-/

namespace QuorumStore

/-- A coordinating member, the replicas, and the repair jobs. -/
structure Cluster where
  /-- The bus, with the coordinator's registry. -/
  network : Network
  /-- The replicas. -/
  replicas : Replicas
  /-- The repair queue. -/
  queue : RepairBacklog

namespace Cluster

/-- The host of the coordinating member. -/
def coordinator : Host := "coordinator"

/-- Start a cluster of replicas. -/
def start (config : ClusterParams) (replicas : List Replica) (capacity workers : Nat) :
    Except Abort Cluster := do
  let network := Network.empty.join coordinator .client
  let network := replicas.foldl (fun n r => n.join r.host .store) network
  let network ← network.openRegistry coordinator config
  let (churn, network) := network.update coordinator
  let _ ← churn
  let queue ← RepairBacklog.start capacity workers
  return ⟨network, ⟨[], replicas⟩, queue⟩

/-- The coordinator's registry with the replicas. -/
def site? (c : Cluster) : Option (Site Replicas) :=
  (c.network.registry? coordinator).map fun r => ⟨r, c.replicas⟩

/-- Take a site back into the cluster. -/
def putSite (c : Cluster) (site : Site Replicas) : Cluster :=
  { c with network := c.network.putRegistry site.registry, replicas := site.world }

/-- Take a changed bus in. The coordinator asks a host that comes back after it
was dropped anew, so one that is not listed starts with an empty store again. -/
def putNetwork (c : Cluster) (network : Network) : Cluster :=
  let known := ((network.registry? coordinator).map Registry.nodes).getD []
  { c with network := network, replicas := c.replicas.forgetExcept known }

/-- Work off the repair queue. -/
def settle (c : Cluster) : Cluster :=
  match c.site? with
  | none => c
  | some site =>
    let (queue, site) := c.queue.drain Replicas.fleet (fun _ => id) site
    { c.putSite site with queue := queue }

/-- Carry out an operation. The fields that it suspects are queued, and repaired
once the answer is known. -/
def run (c : Cluster) (op : Operation) : Outcome Reply × Cluster :=
  match c.site? with
  | none => (.notFound, c)
  | some site =>
    let (report, site) := site.run Replicas.fleet id op
    let c := c.putSite site
    (report.outcome, { c with queue := (c.queue.offer report.repairs).1 }.settle)

/-- Repair items at once. -/
def repair (c : Cluster) (items : List Suspect) :
    Except Abort (Except Fault RepairCounts × Cluster) :=
  match c.site? with
  | none => .ok (.ok ⟨0, 0, 0, 0, 0⟩, c)
  | some site =>
    match site.repair Replicas.fleet (fun _ => id) items with
    | (.error abort, _) => .error abort
    | (.ok result, site) => .ok (result, c.putSite site)

/-- Queue repair jobs, then work them off. The answer tells of each job whether
it was taken and how many places were left. -/
def schedule (c : Cluster) (jobs : List RepairJob) : List (Bool × Nat) × Cluster :=
  let (queue, taken) := c.queue.offerAll jobs
  (taken, { c with queue := queue }.settle)

/-- Send a call to one host. -/
def ask (c : Cluster) (host : Host) (call : Call) : List Reply × Cluster :=
  let (replies, replicas) := c.replicas.answer host call
  (replies, { c with replicas := replicas })

/-- Send a call to hosts and gather the replies. -/
def scatter (c : Cluster) (hosts : List Host) (call : Call) : List Tagged × Cluster :=
  let (replies, replicas) := Replicas.fleet.scatter hosts call c.replicas
  (replies, { c with replicas := replicas })

/-- Send a call to the store of a listed host, past its script. -/
def askStore (c : Cluster) (host : Host) (call : Call) : Reply × Cluster :=
  match c.replicas.listed.find? fun r => r.host = host with
  | none => (.fault (.notFound host), c)
  | some r =>
    let (reply, store) := r.store.answer call
    (reply, { c with replicas := c.replicas.modify host fun r => { r with store := store } })

/-- Give a listed host another script. -/
def rescript (c : Cluster) (host : Host) (script : Script) : Cluster :=
  { c with replicas := c.replicas.modify host fun r => { r with script := script } }

/-- The hosts that hold data, as listed. -/
def hosts (c : Cluster) : List Host := c.replicas.listed.map Replica.host

/-- Whether the coordinator believes that a host holds a key. -/
def believes (c : Cluster) (host : Host) (key : Key) : Bool :=
  (c.network.registry? coordinator).any fun r => r.holds key host

/-- The clock of the coordinator's hint for a host. -/
def clock? (c : Cluster) (host : Host) : Option Nat :=
  (c.network.registry? coordinator).bind fun r => r.clock? (Registry.digest host)

end Cluster

end QuorumStore
