import FraudDetect.Drools.Firings
import FraudDetect.Drools.Confluence
import FraudDetect.Drools.Sequential
import FraudDetect.Service.Failures
import FraudDetect.Service.Protocol
import FraudDetect.Service.Shutdown
import FraudDetect.Service.Pipeline
import FraudDetect.Service.Traces
import FraudDetect.Service.Progress
import FraudDetect.Service.Concurrent
import FraudDetect.Generator.Agreement
import FraudDetect.Generator.Identifiers
import FraudDetect.Generator.Requests
import FraudDetect.System.EndToEnd
import FraudDetect.System.Recovery
import FraudDetect.System.Access
