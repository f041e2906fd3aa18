import LockFreeRings.Building
import LockFreeRings.Json.Reader
import LockFreeRings.Config.Text
import LockFreeRings.CacheLine
import LockFreeRings.Spinlock.Guarded
import LockFreeRings.Element
import LockFreeRings.Spsc.Session
import LockFreeRings.Mpmc.Session
import LockFreeRings.Mpmc.Call
import LockFreeRings.Spinlock.Sections
import LockFreeRings.Mpmc.Transfer
import LockFreeRings.Spsc.Transfer
import LockFreeRings.Spsc.Alone
import LockFreeRings.Benchmark
import LockFreeRings.Main
import LockFreeRings.Json.Skip
import LockFreeRings.Proofs.Counting
import LockFreeRings.Proofs.Mpmc.Slots
import LockFreeRings.Proofs.Mpmc.Laps
import LockFreeRings.Proofs.Mpmc.Books
import LockFreeRings.Proofs.Mpmc.Accounts
import LockFreeRings.Proofs.Mpmc.Steps
import LockFreeRings.Proofs.Mpmc.Exchange
import LockFreeRings.Proofs.Spsc.Cursors
import LockFreeRings.Proofs.Spsc.Handles
import LockFreeRings.Proofs.Spsc.Knowledge
import LockFreeRings.Proofs.Spsc.Consuming
import LockFreeRings.Proofs.Spsc.Handover
import LockFreeRings.Proofs.Mpmc.Cells
import LockFreeRings.Proofs.Mpmc.Cellwise
import LockFreeRings.Proofs.Mpmc.Nesting
import LockFreeRings.Proofs.Spsc.Fifo
import LockFreeRings.Proofs.Spsc.Places
import LockFreeRings.Proofs.Spsc.Borrowing
import LockFreeRings.Proofs.Spsc.Callbacks
import LockFreeRings.Proofs.Spsc.Nesting
import LockFreeRings.Proofs.Spinlock.Exclusion
import LockFreeRings.Proofs.Spsc.Separation
import LockFreeRings.Proofs.Mpmc.Ownership
import LockFreeRings.Proofs.Mpmc.RealTime
import LockFreeRings.Proofs.Mpmc.Verdicts
import LockFreeRings.Proofs.Spsc.Refusals
import LockFreeRings.Proofs.Mpmc.Stalls
import LockFreeRings.Proofs.Spsc.Traceless
import LockFreeRings.Proofs.Mpmc.Queries
import LockFreeRings.Proofs.Spsc.Lengths
import LockFreeRings.Proofs.Spsc.Promises
import LockFreeRings.Proofs.Mpmc.Dealings
import LockFreeRings.Proofs.Mpmc.Fates
import LockFreeRings.Proofs.Spsc.Ledger
import LockFreeRings.Proofs.Spsc.Accounts
import LockFreeRings.Proofs.Spsc.Fates
import LockFreeRings.Proofs.Mpmc.Retries
import LockFreeRings.Proofs.Spsc.Streams
import LockFreeRings.Proofs.Spsc.Agreement
import LockFreeRings.Proofs.Spsc.Persistence
import LockFreeRings.Proofs.Rounding
import LockFreeRings.Proofs.Outcomes
import LockFreeRings.Proofs.Mpmc.Batches
import LockFreeRings.Proofs.Spinlock.Guards
import LockFreeRings.Proofs.Configurations
import LockFreeRings.Proofs.Spsc.Unwrapped
import LockFreeRings.Proofs.Mpmc.Sequences
