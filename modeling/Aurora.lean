import Aurora.Lib.Memory
import Aurora.Lib.Aead
import Aurora.Lib.Transition
import Aurora.Lib.Bag
import Aurora.Lib.CString
import Aurora.Lib.Loop
import Aurora.Lib.Register
import Aurora.Lib.Ports
import Aurora.Lib.Bytes
import Aurora.Lib.BinaryPoly
import Aurora.Lib.Gf128
import Aurora.Lib.Gcm
import Aurora.Lib.Aes
import Aurora.Boundary
import Aurora.Ring.Layout
import Aurora.Ring.Calls
import Aurora.Ring.Footprint
import Aurora.Ring.Agreement
import Aurora.Ring.Drain
import Aurora.Ring.Blocking
import Aurora.Ring.Steps
import Aurora.Ring.Effects
import Aurora.Ring.Interleaving
import Aurora.Ring.Sequential
import Aurora.Ring.Order
import Aurora.Ring.Replay
import Aurora.Ring.Integrity
import Aurora.Ring.Oblivious
import Aurora.Ring.Producers
import Aurora.Crypto.Sse
import Aurora.Crypto.Ghash
import Aurora.Crypto.Aes
import Aurora.Crypto.Aes256gcm
import Aurora.Crypto.Standard
import Aurora.Ring.NonceReuse
import Aurora.Smm.Random
import Aurora.Smm.Keyboard
import Aurora.Smm.EnableSse
import Aurora.Smm.InputMode
import Aurora.Smm.Network
import Aurora.Smm.Interception
import Aurora.Smm.Overlap
import Aurora.Smm.Usb
import Aurora.Smm.WriteTargets
import Aurora.Smm.Dispatch
import Aurora.Smm.Resume
import Aurora.Pcnet
import Aurora.Smm.Output
import Aurora.Smm.MacText
import Aurora.Smm.Transmit
import Aurora.Smm.Batch
import Aurora.Smm.Backdoor
import Aurora.Smm.IndexRace
import Aurora.Uio.Handover
import Aurora.Enclave.SecureInput
import Aurora.DrainLoops
import Aurora.Enclave.Passphrase
import Aurora.TrustedInput
import Aurora.Sessions
import Aurora.Enclave.HostPointers
import Aurora.Lwip.Receive
import Aurora.Lwip.Transmit
import Aurora.MacProt
import Aurora.Leakage
import Aurora.Lib.Md5
import Aurora.Storage.Md5
import Aurora.Lib.OnesComplement
import Aurora.Lwip.Checksum
import Aurora.Lib.Tiling
import Aurora.Lwip.Reassembly
import Aurora.Lwip.Fragments
import Aurora.Lwip.ReassemblyFaults
import Aurora.Lwip.Reassembled
