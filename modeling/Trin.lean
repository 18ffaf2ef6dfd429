import Trin.Basic
import Trin.Rlp
import Trin.Ssz.Basic
import Trin.Ssz.Fixed
import Trin.Ssz.Offsets
import Trin.Ssz.Union
import Trin.ContentItem
import Trin.History
import Trin.RoundTrip
import Trin.Panics
import Trin.Reencode
import Trin.Truncation
import Trin.Bounds
import Trin.Signature
import Trin.Serde
