import Monza.Lib.Radix
import Monza.Lib.Ownership
import Monza.Pagetable.Deallocation
import Monza.Compartment.Destruction
import Monza.Compartment.Memory
import Monza.Compartment.PageFault
import Monza.Compartment.Permanence
import Monza.Compartment.Lifetime
import Monza.Compartment.Stacks
import Monza.HeapGeneric
import Monza.HeapAlignment
import Monza.Gdt
import Monza.Boot.Idt
import Monza.Boot.E820
import Monza.Boot.InterruptStacks
import Monza.Boot.Platform
import Monza.Mmap
import Monza.Tls
import Monza.TlsSlots
import Monza.HcsListener
import Monza.Output
import Monza.Console
import Monza.Logging
import Monza.Time
import Monza.Random
import Monza.Acpi.Bounds
import Monza.AppFramework
import Monza.Sev.SharedMemory
import Monza.Sev.MsrProtocol
import Monza.Sev.Ghcb
import Monza.Sev.KernelTable
import Monza.Entry.Context
import Monza.Entry.Exceptions
import Monza.Entry.Nesting
import Monza.Entry.Deputy
import Monza.Entry.Invocation
import Monza.GuestRequest.Response
import Monza.CompartmentPass.Soundness
import Monza.CompartmentPass.InitialValues
import Monza.CompartmentPass.Termination
import Monza.Threads.Wakeup
import Monza.Threads.Condition
import Monza.Threads.RecursiveMutex
import Monza.Threads.BringupHandover
import Monza.Threads.HandoverOnce
import Monza.Threads.Shutdown
import Monza.Threads.Collision
import Monza.Threads.Ping
import Monza.Threads.Once
