import Remem.Base.Rounds
import Remem.Jobs.Pool

/-!
# Which tenants a pool comes to

Every poll moves the cursor on by a whole batch, however many tenants of the batch it came to.
As many polls as there are tenants begin a batch at every multiple of what the batch and the
number of tenants have in common, and so come to every tenant as long as the work of the tenants
that far into a batch leaves a slot free.
-/

namespace Remem.Jobs

open Base Keys Storage List Program

variable {tenants : List TenantId}

variable {pool : Pool}

variable {config : PoolConfig} {moments : List (Moment Store (Labelled Deed) Fault)}

section Claims

variable {queue : Queue} {types : List Bytes} {candidates : List Queue.Candidate} {answer : Answer}

end Claims

def busyStore : Store :=
  ((⟨blockCodec, 60000000000⟩ : Queue).enqueueTransaction 1000000000
    [({ jid := Id.filled 1, tenant := ascii "acme", typ := ascii "text.rebuild" }, Id.zero),
      ({ jid := Id.filled 2, tenant := ascii "acme", typ := ascii "text.rebuild" }, Id.zero),
      ({ jid := Id.filled 3, tenant := ascii "zeta", typ := ascii "text.rebuild" }, Id.zero)]).alone
    (fun payload store => payload.batch.commit store) .empty |>.state

def samplePool : PoolConfig where
  queue := ⟨blockCodec, 60000000000⟩
  listing _ := .ok [ascii "acme", ascii "zeta"]
  owner := ascii "worker"

end Remem.Jobs
