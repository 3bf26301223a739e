import Lte.EventLoop
import Lte.Network
/-!
# Isolation — what one client's event does to the others

A packet acts on its sender and an EOF on its own socket, so neither reaches another connection or record.  A failed
read does: `parse_packet` leaves it to `error`, for which every failed call is fatal to the whole server.
-/
namespace Lte

namespace Server

end Server

namespace EventLoop

open Runs

end EventLoop

end Lte
