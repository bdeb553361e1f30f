import WebKit.ContentExtensions.DFACombiner
import WebKit.ContentExtensions.NFAToDFA
import WebKit.DOM.CollectionIndexCache
import WebKit.Graphics.LayoutUnit
import WebKit.Graphics.RegionAlgebra
import WebKit.IndexedDB.Abort
import WebKit.IndexedDB.IndexPopulation
import WebKit.IndexedDB.KeyCodec
import WebKit.IndexedDB.SchemaAbort
import WebKit.JavaScriptCore.B3.SwitchTargets
import WebKit.JavaScriptCore.BigInt.Arithmetic
import WebKit.JavaScriptCore.BigInt.Bitwise
import WebKit.JavaScriptCore.BigInt.StringToBigInt
import WebKit.JavaScriptCore.BigInt.ToString
import WebKit.JavaScriptCore.DFG.Relationship
import WebKit.JavaScriptCore.Yarr.ClassUnion
import WebKit.JavaScriptCore.Yarr.IgnoreCaseClass
import WebKit.Media.IntervalTree
import WebKit.Media.MediaTimeAddition
import WebKit.Media.MediaTimeRounding
import WebKit.Media.TimeRangesExact
import WebKit.Page.UserContentURLPattern
import WebKit.Text.QuotedPrintable
import WebKit.Text.UTF8Cuts
import WebKit.WTF.Base64Decode
import WebKit.WTF.LEBDecoder
import WebKit.WTF.LivenessExact
import WebKit.WTF.RedBlackRuns
import WebKit.WTF.URLParser.FormData
import WebKit.WTF.URLParser.IPv4Runs
import WebKit.WTF.URLParser.IPv6Runs
import WebKit.WebAuthn.CBORKeyOrder
import WebKit.WebSockets.WebSocketChannel
