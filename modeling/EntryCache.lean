import EntryCache.Action
import EntryCache.Text.Quoted
import EntryCache.Text.Blank
import EntryCache.Envelope
import EntryCache.Expiry
import EntryCache.FiniteMap
import EntryCache.Event
import EntryCache.Completion
import EntryCache.Integration
import EntryCache.Key.Form
import EntryCache.Statistics.Form
import EntryCache.Management
import EntryCache.StagedEntry
import EntryCache.Configuration
import EntryCache.Cache.Invoke
import EntryCache.Provider
import EntryCache.Manager.Equipped
import EntryCache.Copier
import EntryCache.Registry
import EntryCache.Method.Calls
import EntryCache.Method.Resolver
import EntryCache.Cache.Operation
import EntryCache.Trial.Names
import EntryCache.Trial.Failure
import EntryCache.Trial.Values
import EntryCache.Trial.Typed
import EntryCache.Trial.Desk
import EntryCache.Trial.Session
import EntryCache.Trial.Source
import EntryCache.Trial.Provider
import EntryCache.Proofs.Staging.Calls
import EntryCache.Proofs.Staging.Consistency
import EntryCache.Proofs.Staging.Refinement
import EntryCache.Proofs.Staging.Removal
import EntryCache.Proofs.Action.Keeps
import EntryCache.Proofs.Cache.Changes
import EntryCache.Proofs.Cache.Invariant
import EntryCache.Proofs.Backing.Store
import EntryCache.Proofs.Backing.Coherence
import EntryCache.Proofs.Staging.Sides
import EntryCache.Proofs.Backing.Processors
import EntryCache.Proofs.Cache.Closed
import EntryCache.Proofs.Cache.Recording
import EntryCache.Proofs.Events.Balance
import EntryCache.Proofs.Staging.Reading
import EntryCache.Proofs.Cache.Reading
import EntryCache.Proofs.Staging.Cell
import EntryCache.Proofs.Wire.RoundTrip
import EntryCache.Proofs.Plain.Access
import EntryCache.Proofs.Plain.Batch
import EntryCache.Proofs.Plain.Map
import EntryCache.Proofs.Registry.Lookups
import EntryCache.Proofs.Registry.Instances
import EntryCache.Proofs.Registry.Memoization
import EntryCache.Proofs.Registry.Vacancies
import EntryCache.Proofs.Cache.Lasting
import EntryCache.Proofs.Manager.Holding
import EntryCache.Proofs.Manager.Destroying
import EntryCache.Proofs.Manager.Typed
import EntryCache.Proofs.Provider.Runs
import EntryCache.Proofs.Provider.Closing
import EntryCache.Proofs.Provider.Handing
import EntryCache.Proofs.Cache.Listeners
import EntryCache.Proofs.Wire.Payload
import EntryCache.Proofs.Method.Memoization
import EntryCache.Proofs.Copies.Operations
import EntryCache.Proofs.Json.Settings
import EntryCache.Proofs.Json.Keys
import EntryCache.Proofs.Wire.Settings
import EntryCache.Proofs.Failures.Operations
import EntryCache.Proofs.Failures.Changes
import EntryCache.Proofs.Failures.Transactions
import EntryCache.Proofs.Cache.Locality
import EntryCache.Proofs.Failures.Batches
import EntryCache.Proofs.Cache.Loading
import EntryCache.Proofs.Registry.Advertising
import EntryCache.Proofs.Registry.Discovery
import EntryCache.Proofs.Registry.Closing
import EntryCache.Proofs.Events.Delivery
import EntryCache.Proofs.Events.Reporting
import EntryCache.Proofs.Writer.Batches
import EntryCache.Proofs.Duration.Lengths
import EntryCache.Proofs.Duration.Moments
import EntryCache.Proofs.Stored.Lengths
import EntryCache.Proofs.Stored.Settings
import EntryCache.Proofs.Stored.Sources
import EntryCache.Proofs.Completion.Parties
import EntryCache.Proofs.Method.Changing
import EntryCache.Proofs.Method.Selecting
import EntryCache.Proofs.Method.Resolving
import EntryCache.Proofs.Error.Wrapping
import EntryCache.Proofs.Management.Names
import EntryCache.Proofs.Configuration.Copies
